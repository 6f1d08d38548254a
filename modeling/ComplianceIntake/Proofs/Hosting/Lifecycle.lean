import ComplianceIntake.Hosting.Lifecycle

/-!
# The runs of a server

Whatever calls are made of a server and whatever becomes of them, its runs do not
overlap: each ends before the next begins, and what has begun without an end is
the current run. A store is closed by the call that ends its run, once, and by no
other. A start that fails is as if it had not been called.
-/

set_option autoImplicit false

namespace ComplianceIntake.Hosting

open ComplianceIntake.Identity
open ComplianceIntake.Configuration
open ComplianceIntake.Network

variable {σ : Type}

namespace Operation

def starts : Operation σ → Prop
  | .start _ _ _ => True
  | .startWith _ _ _ => True
  | .stop _ => False

/-- A call to start with a store that could be opened and an address that could be bound and
read. -/
inductive Offers (run : Run σ) : Operation σ → Prop
  | start : Offers run (.start (.ok run.store) (.ok run.address))
  | startWith : Offers run (.startWith run.store (.ok run.address))

theorem Offers.unique {op : Operation σ} {run other : Run σ} (h : op.Offers run)
    (h' : op.Offers other) : run = other := by
  obtain ⟨address,store⟩ := run
  obtain ⟨address',store'⟩ := other
  cases h <;> cases h' <;> rfl

theorem offers_start_iff {store : σ} {bound : Except String SocketAddress} {unread : Option String}
    {run : Run σ} : (start (.ok store) bound unread).Offers run ↔
      bound = .ok run.address ∧ unread = none ∧ store = run.store := by
  constructor
  · rintro ⟨⟩
    exact ⟨rfl,rfl,rfl⟩
  · rintro ⟨rfl,rfl,rfl⟩
    exact .start

theorem offers_start_with_iff {store : σ} {bound : Except String SocketAddress}
    {unread : Option String} {run : Run σ} : (startWith store bound unread).Offers run ↔
      bound = .ok run.address ∧ unread = none ∧ store = run.store := by
  constructor
  · rintro ⟨⟩
    exact ⟨rfl,rfl,rfl⟩
  · rintro ⟨rfl,rfl,rfl⟩
    exact .startWith

end Operation

namespace Server

inductive Outcome (s : Server σ) :
    Operation σ → Except Fault Unit → Server σ → List σ → Prop
  | busy {op : Operation σ} {run : Run σ} (hop : op.starts) (hs : s.running = some run) :
      Outcome s op (.ok ()) s []
  | begun {op : Operation σ} {run : Run σ} (hop : op.Offers run) (hs : s.running = none) :
      Outcome s op (.ok ()) { s with running := some run } []
  | failed {op : Operation σ} {fault : Fault} (hop : op.starts) (hno : ∀ run, ¬ op.Offers run)
      (hs : s.running = none) : Outcome s op (.error fault) s []
  | resting {join : Join} (hs : s.running = none) : Outcome s (.stop join) (.ok ()) s []
  | ended {join : Join} {run : Run σ} (hs : s.running = some run) :
      Outcome s (.stop join) (joinResult join) { s with running := none } [run.store]

theorem outcome_begin {s : Server σ} {op : Operation σ} {store : σ}
    {bound : Except String SocketAddress} {unread : Option String} (hs : s.running = none)
    (hop : op.starts) (hoffers : ∀ run, op.Offers run ↔
      bound = .ok run.address ∧ unread = none ∧ store = run.store) :
    s.Outcome op (s.begin store bound unread).result (s.begin store bound unread).server
      (s.begin store bound unread).closed := by
  cases bound with
  | error detail => exact .failed hop (fun run h => nomatch ((hoffers run).mp h).1) hs
  | ok address =>
    cases unread with
    | some detail => exact .failed hop (fun run h => nomatch ((hoffers run).mp h).2.1) hs
    | none => exact .begun ((hoffers ⟨address, store⟩).mpr ⟨rfl,rfl,rfl⟩) hs

theorem outcome_operate (s : Server σ) (op : Operation σ) :
    s.Outcome op (s.operate op).result (s.operate op).server (s.operate op).closed := by
  cases hs : s.running with
  | some run =>
    have hon : s.isRunning = true := by simp [isRunning, hs]
    cases op with
    | start opened bound unread =>
      have hidle : s.operate (.start opened bound unread) = s.idle := if_pos hon
      rw [hidle]
      exact .busy trivial hs
    | startWith store bound unread =>
      have hidle : s.operate (.startWith store bound unread) = s.idle := if_pos hon
      rw [hidle]
      exact .busy trivial hs
    | stop join =>
      rw [operate, stop, hs]
      exact .ended hs
  | none =>
    have hoff : ¬ s.isRunning = true := by simp [isRunning, hs]
    cases op with
    | start opened bound unread =>
      cases opened with
      | error error =>
        have hfailed : s.operate (.start (.error error) bound unread) =
            { result := .error (.storeUnavailable error), server := s } := if_neg hoff
        rw [hfailed]
        exact .failed trivial nofun hs
      | ok store =>
        have hbegin : s.operate (.start (.ok store) bound unread) = s.begin store bound unread :=
          if_neg hoff
        rw [hbegin]
        exact outcome_begin hs trivial fun _ => Operation.offers_start_iff
    | startWith store bound unread =>
      have hbegin : s.operate (.startWith store bound unread) = s.begin store bound unread :=
        if_neg hoff
      rw [hbegin]
      exact outcome_begin hs trivial fun _ => Operation.offers_start_with_iff
    | stop join =>
      rw [operate, stop, hs]
      exact .resting hs

theorem is_running_eq_false_iff {s : Server σ} : s.isRunning = false ↔ s.running = none :=
  Option.isSome_eq_false_iff.trans Option.isNone_iff_eq_none

/-- The run that there is afterwards where there was none before. -/
def begunRun (s after : Server σ) : Option (Run σ) := if s.isRunning then none else after.running

/-- The run that there was before where there is none afterwards. -/
def endedRun (s after : Server σ) : Option (Run σ) := if after.isRunning then none else s.running

def begun (s : Server σ) : List (Operation σ) → List (Run σ)
  | [] => []
  | op :: ops =>
    (s.begunRun (s.operate op).server).toList ++ (s.operate op).server.begun ops

def ended (s : Server σ) : List (Operation σ) → List (Run σ)
  | [] => []
  | op :: ops =>
    (s.endedRun (s.operate op).server).toList ++ (s.operate op).server.ended ops

namespace Outcome

variable {s after : Server σ} {op : Operation σ} {result : Except Fault Unit} {closed : List σ}

/-- What runs and what begins are what ends and what runs afterwards. -/
theorem balance (h : s.Outcome op result after closed) :
    s.running.toList ++ (s.begunRun after).toList =
      (s.endedRun after).toList ++ after.running.toList := by
  cases h with
  | busy hop hs => simp [begunRun, endedRun, isRunning, hs]
  | begun hop hs => simp [begunRun, endedRun, isRunning, hs]
  | failed hop hno hs => simp [begunRun, endedRun, isRunning, hs]
  | resting hs => simp [begunRun, endedRun, isRunning, hs]
  | ended hs => simp [begunRun, endedRun, isRunning, hs]

theorem closes (h : s.Outcome op result after closed) :
    closed = (s.endedRun after).toList.map (·.store) := by
  cases h with
  | busy hop hs => simp [endedRun, isRunning, hs]
  | begun hop hs => simp [endedRun, isRunning]
  | failed hop hno hs => simp [endedRun, isRunning, hs]
  | resting hs => simp [endedRun, isRunning, hs]
  | ended hs => simp [endedRun, isRunning, hs]

theorem settings (h : s.Outcome op result after closed) :
    after.cache = s.cache ∧ after.bindAddress = s.bindAddress := by
  cases h <;> exact ⟨rfl,rfl⟩

theorem of_busy (h : s.Outcome op result after closed) (hop : op.starts) {run : Run σ}
    (hs : s.running = some run) : result = .ok () ∧ after = s := by
  cases h with
  | busy _ _ => exact ⟨rfl,rfl⟩
  | begun _ hnone => cases hs.symm.trans hnone
  | failed _ _ hnone => cases hs.symm.trans hnone
  | resting _ => exact hop.elim
  | ended _ => exact hop.elim

/-- Only to start a server that does not run can fail. -/
theorem of_failed (h : s.Outcome op result after closed) (hop : op.starts) {fault : Fault}
    (hresult : result = .error fault) : after = s ∧ s.running = none := by
  cases h with
  | busy _ _ => cases hresult
  | begun _ _ => cases hresult
  | failed _ _ hnone => exact ⟨rfl,hnone⟩
  | resting _ => exact hop.elim
  | ended _ => exact hop.elim

theorem of_offer (h : s.Outcome op result after closed) {run : Run σ} (hop : op.Offers run)
    (hs : s.running = none) : result = .ok () ∧ after.running = some run := by
  cases h with
  | busy _ hsome => cases hs.symm.trans hsome
  | begun hop' _ => exact ⟨rfl,congrArg some (hop'.unique hop)⟩
  | failed _ hno _ => exact absurd hop (hno run)
  | resting _ => exact nomatch hop
  | ended _ => exact nomatch hop

theorem of_stop {join : Join} (h : s.Outcome (.stop join) result after closed) :
    after.running = none ∧ closed = (s.running.map (·.store)).toList ∧
      (s.running = none → result = .ok ()) := by
  cases h with
  | busy hop _ => exact hop.elim
  | begun hop _ => exact nomatch hop
  | failed hop _ _ => exact hop.elim
  | resting hs => exact ⟨hs,by rw [hs]; rfl,fun _ => rfl⟩
  | ended hs => exact ⟨rfl,by rw [hs]; rfl,fun hnone => nomatch hs.symm.trans hnone⟩

theorem closed_of_starts (h : s.Outcome op result after closed) (hop : op.starts) :
    closed = [] := by
  cases h with
  | busy _ _ => rfl
  | begun _ _ => rfl
  | failed _ _ _ => rfl
  | resting _ => rfl
  | ended _ => exact hop.elim

end Outcome

/-- Runs follow one another: all that began have ended in the same order, but the current one. -/
theorem balance_operate_all (s : Server σ) (ops : List (Operation σ)) :
    s.running.toList ++ s.begun ops = s.ended ops ++ (s.operateAll ops).1.running.toList := by
  induction ops generalizing s with
  | nil => simp [begun, ended, operateAll]
  | cons op ops ih =>
    rw [begun, ended, ← List.append_assoc, (s.outcome_operate op).balance, List.append_assoc, ih,
      ← List.append_assoc]
    rfl

theorem closed_operate_all (s : Server σ) (ops : List (Operation σ)) :
    (s.operateAll ops).2 = (s.ended ops).map (·.store) := by
  induction ops generalizing s with
  | nil => rfl
  | cons op ops ih =>
    rw [ended, List.map_append, ← (s.outcome_operate op).closes, ← ih]
    rfl

theorem settings_operate_all (s : Server σ) (ops : List (Operation σ)) :
    (s.operateAll ops).1.cache = s.cache ∧ (s.operateAll ops).1.bindAddress = s.bindAddress := by
  induction ops generalizing s with
  | nil => exact ⟨rfl,rfl⟩
  | cons op ops ih =>
    obtain ⟨hcache,hbind⟩ := (s.outcome_operate op).settings
    obtain ⟨hcache',hbind'⟩ := ih (s.operate op).server
    exact ⟨hcache'.trans hcache,hbind'.trans hbind⟩

theorem local_address_is_some (s : Server σ) : s.localAddress.isSome = s.isRunning :=
  Option.isSome_map

/-- The life of a server, whatever calls were made of it: what has begun, ended and been closed
until now, and what comes of the next call. -/
theorem lifecycle_of_calls (bindAddress : SocketAddress) (cache : Cache)
    (ops : List (Operation σ)) :
    let s : Server σ := { bindAddress, cache }
    let t := (s.operateAll ops).1
    s.begun ops = s.ended ops ++ t.running.toList ∧
    (s.operateAll ops).2 = (s.ended ops).map (·.store) ∧
    t.cache = cache ∧
    t.localAddress.isSome = t.isRunning ∧
    (∀ op, op.starts → (t.operate op).closed = [] ∧
      (∀ run, t.running = some run → (t.operate op).result = .ok () ∧ (t.operate op).server = t) ∧
      ∀ fault, (t.operate op).result = .error fault →
        (t.operate op).server = t ∧ t.isRunning = false) ∧
    (∀ op run, op.Offers run → t.isRunning = false →
      (t.operate op).result = .ok () ∧ (t.operate op).server.running = some run) ∧
    ∀ join, (t.operate (.stop join)).server.isRunning = false ∧
      (t.operate (.stop join)).server.localAddress = none ∧
      (∀ run, t.running = some run → (t.operate (.stop join)).closed = [run.store]) ∧
      (t.isRunning = false →
        (t.operate (.stop join)).result = .ok () ∧ (t.operate (.stop join)).closed = []) := by
  intro s t
  refine ⟨s.balance_operate_all ops,s.closed_operate_all ops,(s.settings_operate_all ops).1,
    t.local_address_is_some,?_,?_,?_⟩
  · intro op hop
    have h := t.outcome_operate op
    refine ⟨h.closed_of_starts hop,fun run hs => h.of_busy hop hs,?_⟩
    intro fault hfault
    obtain ⟨hsame,hnone⟩ := h.of_failed hop hfault
    exact ⟨hsame,is_running_eq_false_iff.mpr hnone⟩
  · intro op run hop hoff
    exact (t.outcome_operate op).of_offer hop (is_running_eq_false_iff.mp hoff)
  · intro join
    obtain ⟨hnone,hclosed,hresult⟩ := (t.outcome_operate (.stop join)).of_stop
    refine ⟨is_running_eq_false_iff.mpr hnone,by rw [localAddress, hnone]; rfl,?_,?_⟩
    · intro run hs
      rw [hclosed, hs]
      rfl
    · intro hoff
      have hs := is_running_eq_false_iff.mp hoff
      rw [hclosed, hs]
      exact ⟨hresult hs,rfl⟩

def loopback : SocketAddress := ⟨.v4 [127, 0, 0, 1], 80⟩

def twoRuns : List (Operation Nat) :=
  [.start (.error .timeout) (.ok loopback), .startWith 1 (.error "in use"),
    .startWith 1 (.ok loopback) (some "bad descriptor"), .start (.ok 1) (.ok loopback),
    .startWith 2 (.ok loopback), .stop .timedOut, .stop .finished, .startWith 3 (.ok loopback)]

theorem two_runs_closed :
    let s : Server Nat := { bindAddress := loopback }
    let t := (s.operateAll twoRuns).1
    s.ended twoRuns = [⟨loopback, 1⟩] ∧ (s.operateAll twoRuns).2 = [1] ∧
      t.running = some ⟨loopback, 3⟩ ∧
      (t.operate (.startWith 4 (.ok loopback))).server = t ∧
      (t.operate (.stop (.failed "panicked"))).closed = [3] := by
  intro s t
  have hended : s.ended twoRuns = [⟨loopback, 1⟩] := rfl
  have hcurrent : t.running = some ⟨loopback, 3⟩ := rfl
  obtain ⟨_,hclosed,_,_,hstarts,_,hstop⟩ := lifecycle_of_calls loopback {} twoRuns
  refine ⟨hended,?_,hcurrent,?_,?_⟩
  · exact hclosed.trans (congrArg (List.map (·.store)) hended)
  · exact ((hstarts (.startWith 4 (.ok loopback)) trivial).2.1 _ hcurrent).2
  · exact (hstop (.failed "panicked")).2.2.1 _ hcurrent

end Server

end ComplianceIntake.Hosting
