import ComplianceIntake.Proofs.Identity.Bookkeeping
import ComplianceIntake.Proofs.Identity.Traces
import ComplianceIntake.Proofs.Metrics.Counting

/-!
# Attempts and calls

An attempt is noted for every resolution that misses, with its outcome, and is
counted as a call to get or create a row. As a rule it is one. But a policy can
fail before the call: its specification is not JSON, or its hash is unknown, or
cannot be looked up. Then an error is counted although no row was asked for, and
in two of the three cases it is the client who erred.
-/

set_option autoImplicit false

namespace ComplianceIntake.Journal

open ComplianceIntake.Event

def Note.attempt? : Note → Option (Kind × Bool)
  | .getOrCreate kind ok => some (kind, ok)
  | _ => none

def attempts (notes : List Note) : List (Kind × Bool) := notes.filterMap Note.attempt?

theorem count_attempts (notes : List Note) (kind : Kind) (ok : Bool) :
    (attempts notes).count (kind, ok) = notes.count (.getOrCreate kind ok) := by
  induction notes with
  | nil => rfl
  | cons note notes ih =>
    rw [List.count_cons, ← ih, attempts, attempts, List.filterMap_cons]
    cases note with
    | getOrCreate kind' ok' => simp [Note.attempt?, List.count_cons]
    | cacheLookup kind' hit => simp [Note.attempt?]
    | request route method status => simp [Note.attempt?]
    | log entry => simp [Note.attempt?]

end ComplianceIntake.Journal

namespace ComplianceIntake.Identity

open ComplianceIntake.Event
open ComplianceIntake.Store
open ComplianceIntake.Journal

def Taken.rowCall? : Taken → Option (Kind × Bool)
  | ⟨.ask (.getOrCreate draft), answer⟩ => some (draft.key.kind, isOk answer)
  | _ => none

def rowCalls (ts : List Taken) : List (Kind × Bool) := ts.filterMap Taken.rowCall?

theorem row_calls_append (ts us : List Taken) : rowCalls (ts ++ us) = rowCalls ts ++ rowCalls us :=
  List.filterMap_append

variable {σ : Type} [Backend σ] (choice : SpecChoice) (s : Site σ)

/-- The resolution misses, and there is no specification to ask for a row with. -/
inductive Entity.Unspecified : Entity → Prop
  | malformed {p : Policy} {key : PolicyKey} {spec : String} {fault : Spec.Malformed}
      (hkey : p.key = .ok key) (hmiss : s.cache.lookup (.policy key) = none)
      (hspec : p.specText = some spec) (h : Spec.canonical spec = .error fault) :
      Unspecified (.policy p)
  | unknown {p : Policy} {key : PolicyKey} (hkey : p.key = .ok key)
      (hmiss : s.cache.lookup (.policy key) = none) (hspec : p.specText = none)
      (h : (Backend.answer choice (.specByHash key.specHash) s.store).1 = .ok none) :
      Unspecified (.policy p)
  | failed {p : Policy} {key : PolicyKey} {error : StoreError} (hkey : p.key = .ok key)
      (hmiss : s.cache.lookup (.policy key) = none) (hspec : p.specText = none)
      (h : (Backend.answer choice (.specByHash key.specHash) s.store).1 = .error error) :
      Unspecified (.policy p)

section Parts

variable {α β : Type}

structure Asking (p : Steps α) (calls : List (Kind × Bool)) : Prop where
  notes : (p.run choice s).notes = []
  calls : rowCalls (p.trace choice s) = calls

variable {choice} {s} {p : Steps β} {f : β → Steps α}

theorem run_and_then_error {e : ResolveError} (h : (p.run choice s).value = .error e) :
    ((p.andThen f).run choice s).value = .error e ∧
      ((p.andThen f).run choice s).notes = (p.run choice s).notes ∧
      (p.andThen f).trace choice s = p.trace choice s := by
  simp only [Plan.andThen, Plan.run_bind, Plan.trace_bind, h, Plan.run, Plan.trace, List.append_nil,
    and_self]

theorem run_and_then_ok {b : β} (h : (p.run choice s).value = .ok b) :
    let o := (f b).run choice (p.run choice s).site
    ((p.andThen f).run choice s).value = o.value ∧
      ((p.andThen f).run choice s).notes = (p.run choice s).notes ++ o.notes ∧
      (p.andThen f).trace choice s =
        p.trace choice s ++ (f b).trace choice (p.run choice s).site := by
  simp only [Plan.andThen, Plan.run_bind, Plan.trace_bind, h, and_self]

theorem Asking.of_error {e : ResolveError} (h : Asking choice s p [])
    (he : (p.run choice s).value = .error e) : Asking choice s (p.andThen f) [] := by
  obtain ⟨_,hnotes,htrace⟩ := run_and_then_error (f := f) he
  exact ⟨hnotes.trans h.notes,by rw [htrace, h.calls]⟩

theorem Asking.of_ok {b : β} {calls : List (Kind × Bool)} (h : Asking choice s p [])
    (hb : (p.run choice s).value = .ok b)
    (hf : Asking choice (p.run choice s).site (f b) calls) :
    Asking choice s (p.andThen f) calls := by
  obtain ⟨_,hnotes,htrace⟩ := run_and_then_ok (f := f) hb
  constructor
  · rw [hnotes, h.notes, hf.notes, List.append_nil]
  · rw [htrace, row_calls_append, h.calls, hf.calls, List.nil_append]

variable (choice) (s)

theorem asking_get_or_create (draft : Draft) :
    Asking choice s (askStore (.getOrCreate draft))
      [(draft.key.kind, isOk ((askStore (.getOrCreate draft)).run choice s).value)] := by
  refine ⟨rfl,?_⟩
  show [(draft.key.kind, isOk (Backend.answer choice (.getOrCreate draft) s.store).1)] =
    [(draft.key.kind, isOk ((Backend.answer choice (.getOrCreate draft) s.store).1.mapError _))]
  cases (Backend.answer choice (.getOrCreate draft) s.store).1 <;> rfl

/-- What a specification comes from is no call for a row. -/
theorem asking_spec_for (p : Policy) (hash : String) : Asking choice s (specFor p hash) [] := by
  unfold specFor
  cases p.specText with
  | some spec =>
    simp only
    cases Spec.canonical spec <;> exact ⟨rfl,rfl⟩
  | none =>
    have hask : Asking choice s (askStore (.specByHash hash)) [] := ⟨rfl,rfl⟩
    cases hv : ((askStore (.specByHash hash)).run choice s).value with
    | error e => exact hask.of_error hv
    | ok found =>
      refine hask.of_ok hv ?_
      cases found <;> exact ⟨rfl,rfl⟩

theorem run_spec_for_eq_error_iff (p : Policy) (hash : String) :
    (∃ e, ((specFor p hash).run choice s).value = .error e) ↔
      (∃ spec fault, p.specText = some spec ∧ Spec.canonical spec = .error fault) ∨
      p.specText = none ∧
        ((Backend.answer choice (.specByHash hash) s.store).1 = .ok none ∨
          ∃ error, (Backend.answer choice (.specByHash hash) s.store).1 = .error error) := by
  unfold specFor
  cases p.specText with
  | some spec =>
    cases h : Spec.canonical spec with
    | ok text => simp [h, Plan.run]
    | error fault => simp [h, Plan.run]
  | none =>
    have hask : ((askStore (.specByHash hash)).run choice s).value =
        (Backend.answer choice (.specByHash hash) s.store).1.mapError .store := rfl
    cases h : (Backend.answer choice (.specByHash hash) s.store).1 with
    | error error =>
      rw [h] at hask
      simp [(run_and_then_error hask).1]
    | ok found =>
      rw [h] at hask
      rw [(run_and_then_ok hask).1]
      cases found <;> simp [Plan.run]

end Parts

section Resolution

variable {choice} {s} {key : NaturalKey} {fetch : Steps Int}

theorem attempts_identify_hit (choice : SpecChoice) {id : Int} (h : s.cache.lookup key = some id) :
    attempts ((identify key fetch).run choice s).notes = [] ∧
      rowCalls ((identify key fetch).trace choice s) = [] := by
  simp only [identify, Plan.run, Plan.trace, Action.perform, h]
  exact ⟨rfl,rfl⟩

theorem attempts_settle_miss (choice : SpecChoice) (key : NaturalKey)
    (attempt : Except ResolveError Int) (s : Site σ) :
    attempts ((settleMiss key attempt).run choice s).notes = [(key.kind, isOk attempt)] ∧
      rowCalls ((settleMiss key attempt).trace choice s) = [] ∧
      ((settleMiss key attempt).run choice s).value = attempt := by
  cases attempt <;> exact ⟨rfl,rfl,rfl⟩

theorem attempts_identify_miss {calls : List (Kind × Bool)} (h : s.cache.lookup key = none)
    (hf : Asking choice s fetch calls) :
    attempts ((identify key fetch).run choice s).notes =
        [(key.kind, isOk (fetch.run choice s).value)] ∧
      rowCalls ((identify key fetch).trace choice s) = calls ∧
      ((identify key fetch).run choice s).value = (fetch.run choice s).value := by
  obtain ⟨hattempts,hcalls,hvalue⟩ := attempts_settle_miss choice key (fetch.run choice s).value
    (fetch.run choice s).site
  simp only [identify, Plan.run, Plan.trace, Plan.run_bind, Plan.trace_bind, Action.perform, h]
  refine ⟨?_,?_,hvalue⟩
  · rw [hf.notes]
    exact hattempts
  · show rowCalls (fetch.trace choice s ++ _) = calls
    rw [row_calls_append, hcalls, hf.calls, List.append_nil]

/-- Where the attempt is one call, what is noted is what was asked. -/
theorem attempts_identify {draft : Draft} (hkey : draft.key = key) :
    attempts ((identify key (askStore (.getOrCreate draft))).run choice s).notes =
      rowCalls ((identify key (askStore (.getOrCreate draft))).trace choice s) := by
  cases hl : s.cache.lookup key with
  | some id =>
    obtain ⟨hattempts,hcalls⟩ := attempts_identify_hit choice hl
    rw [hattempts, hcalls]
  | none =>
    obtain ⟨hattempts,hcalls,_⟩ := attempts_identify_miss hl (asking_get_or_create choice s draft)
    rw [hattempts, hcalls, hkey]

theorem attempts_resolve_keyed {κ : Type} {own : Except KeyFault κ} {natural : κ → NaturalKey}
    {fetch : κ → Steps Int}
    (h : ∀ k, own = .ok k → attempts ((identify (natural k) (fetch k)).run choice s).notes =
      rowCalls ((identify (natural k) (fetch k)).trace choice s)) :
    attempts ((resolveKeyed own natural fetch).run choice s).notes =
      rowCalls ((resolveKeyed own natural fetch).trace choice s) := by
  cases own with
  | error fault => rfl
  | ok k => exact h k rfl

namespace Entity

theorem unspecified_policy_iff (p : Policy) : (Entity.policy p).Unspecified choice s ↔
    ∃ key, p.key = .ok key ∧ s.cache.lookup (.policy key) = none ∧
      ∃ e, ((specFor p key.specHash).run choice s).value = .error e := by
  simp only [run_spec_for_eq_error_iff]
  constructor
  · intro h
    cases h with
    | malformed hkey hmiss hspec h => exact ⟨_,hkey,hmiss,Or.inl ⟨_,_,hspec,h⟩⟩
    | unknown hkey hmiss hspec h => exact ⟨_,hkey,hmiss,Or.inr ⟨hspec,Or.inl h⟩⟩
    | failed hkey hmiss hspec h => exact ⟨_,hkey,hmiss,Or.inr ⟨hspec,Or.inr ⟨_,h⟩⟩⟩
  · rintro ⟨key,hkey,hmiss,⟨spec,fault,hspec,h⟩ | ⟨hspec,h | ⟨error,h⟩⟩⟩
    · exact .malformed hkey hmiss hspec h
    · exact .unknown hkey hmiss hspec h
    · exact .failed hkey hmiss hspec h

/-- An attempt is noted as a failure though no row was asked for. -/
theorem attempts_of_unspecified {x : Entity} (h : x.Unspecified choice s) :
    attempts (x.resolve.run choice s).notes = [(x.kind, false)] ∧
      rowCalls (x.resolve.trace choice s) = [] ∧
      ∃ error, (x.resolve.run choice s).value = .error error := by
  cases x with
  | cluster c => exact nomatch h
  | parentPolicy p => exact nomatch h
  | policy p =>
    obtain ⟨key,hkey,hmiss,error,herror⟩ := (unspecified_policy_iff p).mp h
    have hasking := (asking_spec_for choice s p key.specHash).of_error
      (f := fun spec => askStore (.getOrCreate (.policy key spec))) herror
    have hvalue := (run_and_then_error
      (f := fun spec => askStore (.getOrCreate (.policy key spec))) herror).1
    obtain ⟨hattempts,hcalls,hresult⟩ := attempts_identify_miss hmiss hasking
    rw [resolve, resolvePolicy, hkey, resolveKeyed, hattempts, hcalls, hresult, hvalue]
    exact ⟨rfl,rfl,error,rfl⟩

/-- Apart from that the attempts that are noted are the calls for rows, with their outcomes. -/
theorem attempts_of_specified {x : Entity} (h : ¬ x.Unspecified choice s) :
    attempts (x.resolve.run choice s).notes = rowCalls (x.resolve.trace choice s) := by
  cases x with
  | cluster c => exact attempts_resolve_keyed fun k _ => attempts_identify rfl
  | parentPolicy p => exact attempts_resolve_keyed fun k _ => attempts_identify rfl
  | policy p =>
    refine attempts_resolve_keyed fun key hkey => ?_
    cases hl : s.cache.lookup (.policy key) with
    | some id =>
      obtain ⟨hattempts,hcalls⟩ := attempts_identify_hit choice hl
      rw [hattempts, hcalls]
    | none =>
      cases hv : ((specFor p key.specHash).run choice s).value with
      | error e => exact absurd ((unspecified_policy_iff p).mpr ⟨key,hkey,hl,e,hv⟩) h
      | ok spec =>
        have hask := asking_get_or_create choice ((specFor p key.specHash).run choice s).site
          (.policy key spec)
        have hfetch := (asking_spec_for choice s p key.specHash).of_ok
          (f := fun spec => askStore (.getOrCreate (.policy key spec))) hv hask
        obtain ⟨hattempts,hcalls,_⟩ := attempts_identify_miss hl hfetch
        rw [hattempts, hcalls, (run_and_then_ok hv).1]
        rfl

end Entity

end Resolution

end ComplianceIntake.Identity

namespace ComplianceIntake.Metrics.Registry

open ComplianceIntake.Event
open ComplianceIntake.Store
open ComplianceIntake.Identity
open ComplianceIntake.Journal

/-- Every kind's counters rose by its calls, and an error is counted only where a call failed. -/
structure CountsCalls (r r' : Registry) (calls : List (Kind × Bool)) : Prop where
  total : ∀ kind, r'.getOrCreateCount kind true + r'.getOrCreateCount kind false =
    r.getOrCreateCount kind true + r.getOrCreateCount kind false + calls.countP (·.1 = kind)
  failures : ∀ kind, r.getOrCreateCount kind false < r'.getOrCreateCount kind false →
    (kind, false) ∈ calls

theorem count_p_kind (calls : List (Kind × Bool)) (kind : Kind) :
    calls.countP (·.1 = kind) = calls.count (kind, true) + calls.count (kind, false) := by
  induction calls with
  | nil => rfl
  | cons call calls ih =>
    obtain ⟨kind',ok⟩ := call
    rw [List.countP_cons, List.count_cons, List.count_cons, ih]
    cases ok <;> by_cases h : kind' = kind <;> simp [h] <;> omega

theorem absorb_all_attempts (nanoseconds : Nat) (r : Registry) (notes : List Note) (kind : Kind)
    (ok : Bool) : (r.absorbAll nanoseconds notes).getOrCreateCount kind ok =
      r.getOrCreateCount kind ok + (attempts notes).count (kind, ok) := by
  rw [get_or_create_count_absorb_all, count_attempts]

theorem counts_calls_of_attempts (nanoseconds : Nat) (r : Registry) {notes : List Note}
    {calls : List (Kind × Bool)} (h : attempts notes = calls) :
    r.CountsCalls (r.absorbAll nanoseconds notes) calls := by
  subst h
  constructor
  · intro kind
    rw [absorb_all_attempts, absorb_all_attempts, count_p_kind]
    omega
  · intro kind hless
    rw [absorb_all_attempts] at hless
    exact List.count_pos_iff.mp (by omega)

variable {σ : Type} [Backend σ]

/-- The counters are those of the calls for rows, but for an attempt that ends before its call: it
is counted as a call of its kind that failed. -/
theorem counts_calls_iff_specified (nanoseconds : Nat) (r : Registry) (choice : SpecChoice)
    (x : Entity) (s : Site σ) :
    let o := x.resolve.run choice s
    let calls := rowCalls (x.resolve.trace choice s)
    let r' := r.absorbAll nanoseconds o.notes
    (r.CountsCalls r' calls ↔ ¬ x.Unspecified choice s) ∧
    (∀ kind, r'.getOrCreateCount kind true =
      r.getOrCreateCount kind true + calls.count (kind, true)) ∧
    (¬ x.Unspecified choice s → ∀ kind, r'.getOrCreateCount kind false =
      r.getOrCreateCount kind false + calls.count (kind, false)) ∧
    (x.Unspecified choice s → calls = [] ∧ (∃ error, o.value = .error error) ∧
      ∀ kind, r'.getOrCreateCount kind false =
        r.getOrCreateCount kind false + if x.kind = kind then 1 else 0) := by
  intro o calls r'
  have hcount : ∀ kind ok, r'.getOrCreateCount kind ok =
      r.getOrCreateCount kind ok + (attempts o.notes).count (kind, ok) :=
    r.absorb_all_attempts nanoseconds o.notes
  by_cases h : x.Unspecified choice s
  · obtain ⟨hattempts,hcalls,herror⟩ := Entity.attempts_of_unspecified h
    have hfailed : ∀ kind, r'.getOrCreateCount kind false =
        r.getOrCreateCount kind false + if x.kind = kind then 1 else 0 := by
      intro kind
      rw [hcount, hattempts]
      simp [List.count_singleton]
    have hnot : ¬ r.CountsCalls r' calls := by
      intro hcounts
      have hless : r.getOrCreateCount x.kind false < r'.getOrCreateCount x.kind false := by
        simp [hfailed]
      have hmem := hcounts.failures x.kind hless
      rw [show calls = [] from hcalls] at hmem
      exact List.not_mem_nil hmem
    have hsucceeded : ∀ kind, r'.getOrCreateCount kind true =
        r.getOrCreateCount kind true + calls.count (kind, true) := by
      intro kind
      rw [hcount, hattempts, show calls = [] from hcalls]
      simp
    exact ⟨iff_of_false hnot (not_not.mpr h),hsucceeded,absurd h,fun _ => ⟨hcalls,herror,hfailed⟩⟩
  · have hattempts : attempts o.notes = calls := Entity.attempts_of_specified h
    have hcounts : r.CountsCalls r' calls := r.counts_calls_of_attempts nanoseconds hattempts
    refine ⟨iff_of_true hcounts h,fun kind => ?_,fun _ kind => ?_,fun h' => absurd h' h⟩
    · rw [hcount, hattempts]
    · rw [hcount, hattempts]

def strayHash : String := "356a192b7913b04c54574d18c28d46e6395428ab"

/-- A policy that comes with a hash alone, resolved where no policy has it: the client is told to
send the specification, no row is asked for, and a failed call is counted. -/
theorem unknown_spec_counted :
    let x := Entity.policy { name := "r", space := "m", specHash := some strayHash }
    let s : Site Ledger := ⟨{}, {}⟩
    let o := x.resolve.run .first s
    o.value = .error (.unknownSpec strayHash) ∧
      (ResolveError.unknownSpec strayHash).isClientError = true ∧
      rowCalls (x.resolve.trace .first s) = [] ∧
      ({} : Registry).getOrCreateCount .policy false = 0 ∧
      (({} : Registry).absorbAll 0 o.notes).getOrCreateCount .policy false = 1 ∧
      ¬ ({} : Registry).CountsCalls (({} : Registry).absorbAll 0 o.notes)
        (rowCalls (x.resolve.trace .first s)) := by
  intro x s o
  have hcalls : rowCalls (x.resolve.trace .first s) = [] := by decide +kernel
  have hraised : (({} : Registry).absorbAll 0 o.notes).getOrCreateCount .policy false = 1 := by
    decide +kernel
  refine ⟨by decide +kernel,rfl,hcalls,rfl,hraised,fun hcounts => ?_⟩
  have hmem := hcounts.failures .policy (by rw [hraised]; decide +kernel)
  rw [hcalls] at hmem
  exact List.not_mem_nil hmem

end ComplianceIntake.Metrics.Registry
