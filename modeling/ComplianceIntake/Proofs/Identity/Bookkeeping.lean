import ComplianceIntake.Proofs.Store.Growth
import ComplianceIntake.Identity.Resolve

/-!
# What a resolution notes

The notes of a plan can be counted without knowing what it is answered: a
resolution notes one lookup. What is noted of a miss follows from it and from
the calls that reached the ledger, so the notes and the ledger's own count of
these calls keep each other in balance, whichever way a resolution ends.
-/

set_option autoImplicit false

namespace ComplianceIntake.Journal

open ComplianceIntake.Event

def Note.isRequest : Note → Bool
  | .request _ _ _ => true
  | _ => false

def Note.isLookup (kind : Kind) : Note → Bool
  | .cacheLookup kind' _ => kind' = kind
  | _ => false

theorem count_p_is_lookup (kind : Kind) (notes : List Note) :
    notes.countP (Note.isLookup kind) =
      notes.count (.cacheLookup kind true) + notes.count (.cacheLookup kind false) := by
  induction notes with
  | nil => rfl
  | cons note notes ih =>
    rw [List.countP_cons, List.count_cons, List.count_cons, ih]
    cases note with
    | cacheLookup kind' hit =>
      by_cases h : kind' = kind <;> cases hit <;> simp [Note.isLookup, h] <;> omega
    | getOrCreate kind' ok => simp [Note.isLookup]
    | request route method status => simp [Note.isLookup]
    | log entry => simp [Note.isLookup]

def Note.isNeutral : Note → Bool
  | .cacheLookup _ hit => hit
  | .getOrCreate _ _ => false
  | _ => true

def obtained (notes : List Note) : Nat :=
  notes.count (.getOrCreate .cluster true) + notes.count (.getOrCreate .parentPolicy true)
    + notes.count (.getOrCreate .policy true)

theorem obtained_append (notes notes' : List Note) :
    obtained (notes ++ notes') = obtained notes + obtained notes' := by
  simp only [obtained, List.count_append]
  omega

end ComplianceIntake.Journal

namespace ComplianceIntake.Identity

open ComplianceIntake.Event
open ComplianceIntake.Store
open ComplianceIntake.Journal

namespace Plan

variable {ν α β : Type} {q : ν → Bool} {j k : Nat}

/-- Run on a ledger, the plan makes so many notes of this sort, whatever it is answered. -/
def Makes (q : ν → Bool) (k : Nat) (p : Plan ν α) : Prop :=
  ∀ (choice : SpecChoice) (s : Site Ledger), (p.run choice s).notes.countP q = k

theorem makes_done (a : α) : (done a : Plan ν α).Makes q 0 := fun _ _ => rfl

theorem Makes.note (n : ν) {p : Plan ν α} (h : p.Makes q k) :
    (note n p).Makes q (k + if q n then 1 else 0) := by
  intro choice s
  rw [run, List.countP_cons, h choice s]

theorem Makes.skip {n : ν} {p : Plan ν α} (h : p.Makes q k) (hn : q n = false) :
    (Plan.note n p).Makes q k := by
  simpa [hn] using h.note n

theorem makes_act (action : Action) {next : action.Answer → Plan ν α}
    (h : ∀ answer, (next answer).Makes q k) : (act action next).Makes q k :=
  fun choice _ => h _ choice _

theorem Makes.bind {p : Plan ν α} {f : α → Plan ν β} (h : p.Makes q j)
    (hf : ∀ a, (f a).Makes q k) : (p.bind f).Makes q (j + k) := by
  intro choice s
  simp only [run_bind, List.countP_append]
  rw [h choice s, hf _ choice]

theorem Makes.and_then {ε : Type} {p : Plan ν (Except ε α)} {f : α → Plan ν (Except ε β)}
    (h : p.Makes q k) (hf : ∀ a, (f a).Makes q 0) : (p.andThen f).Makes q k := by
  refine Makes.bind (k := 0) h ?_
  intro r
  cases r with
  | ok a => exact hf a
  | error e => exact makes_done _

end Plan

/-- The notes of a stretch of work are in balance with each other, and with the ledger before and
after it. -/
structure Tally (notes : List Note) (l l' : Ledger) : Prop where
  misses : ∀ kind, notes.count (.cacheLookup kind false) =
    notes.count (.getOrCreate kind true) + notes.count (.getOrCreate kind false)
  calls : l'.getOrCreateCalls = l.getOrCreateCalls + obtained notes

theorem Tally.append {notes notes' : List Note} {l l' l'' : Ledger} (h : Tally notes l l')
    (h' : Tally notes' l' l'') : Tally (notes ++ notes') l l'' := by
  constructor
  · intro kind
    simp only [List.count_append, h.misses kind, h'.misses kind]
    omega
  · rw [h'.calls, h.calls, obtained_append, Nat.add_assoc]

theorem Tally.note {notes : List Note} {l l' : Ledger} (h : Tally notes l l') {n : Note}
    (hn : n.isNeutral = true) : Tally (n :: notes) l l' := by
  have hskip : ∀ m : Note, m.isNeutral = false → (n :: notes).count m = notes.count m := by
    intro m hm
    apply List.count_cons_of_ne
    rintro rfl
    exact Bool.false_ne_true (hm.symm.trans hn)
  constructor
  · intro kind
    rw [hskip _ rfl, hskip _ rfl, hskip _ rfl, h.misses kind]
  · rw [obtained, hskip _ rfl, hskip _ rfl, hskip _ rfl]
    exact h.calls

theorem tally_nil {l l' : Ledger} (h : l'.getOrCreateCalls = l.getOrCreateCalls) :
    Tally [] l l' :=
  ⟨fun _ => rfl,h⟩

theorem tally_miss (kind : Kind) (ok : Bool) {l l' : Ledger}
    (h : l'.getOrCreateCalls = l.getOrCreateCalls + if ok then 1 else 0) :
    Tally [.cacheLookup kind false, .getOrCreate kind ok] l l' := by
  constructor
  · intro kind'
    by_cases hk : kind = kind' <;> cases ok <;> simp [hk]
  · rw [h]
    cases kind <;> cases ok <;> rfl

theorem get_or_create_calls_answer (choice : SpecChoice) (c : Call) (l : Ledger)
    (hne : ∀ draft, c ≠ .getOrCreate draft) :
    (l.answer choice c).2.getOrCreateCalls = l.getOrCreateCalls := by
  rcases l.answer_cases choice c with ⟨-,h⟩ | ⟨-,h⟩ <;> rw [h]
  cases c with
  | getOrCreate draft => exact absurd rfl (hne draft)
  | specByHash hash => rfl
  | insertEvent record => rfl
  | ping => rfl

theorem get_or_create_calls_get_or_create (choice : SpecChoice) (draft : Draft) (l : Ledger) :
    (l.answer choice (.getOrCreate draft)).2.getOrCreateCalls = l.getOrCreateCalls +
      if isOk (l.answer choice (.getOrCreate draft)).1 then 1 else 0 := by
  rcases l.answer_cases choice (.getOrCreate draft) with ⟨-,h⟩ | ⟨-,h⟩ <;> rw [h] <;> rfl

namespace Plan

variable {α β : Type}

def Tallies (p : Plan Note α) : Prop :=
  ∀ (choice : SpecChoice) (s : Site Ledger),
    Tally (p.run choice s).notes s.store (p.run choice s).site.store

theorem tallies_done (a : α) : (done a : Plan Note α).Tallies := fun _ _ => tally_nil rfl

theorem tallies_act (action : Action) {next : action.Answer → Plan Note α}
    (hne : ∀ draft, action ≠ .ask (.getOrCreate draft)) (h : ∀ answer, (next answer).Tallies) :
    (act action next).Tallies := by
  intro choice s
  have hcalls : (action.perform choice s).2.store.getOrCreateCalls =
      s.store.getOrCreateCalls := by
    cases action with
    | consult key => rfl
    | remember key id => rfl
    | ask call =>
      exact get_or_create_calls_answer choice call s.store fun draft hd => hne draft (by rw [hd])
  obtain ⟨hmisses,hrest⟩ := h (action.perform choice s).1 choice (action.perform choice s).2
  exact ⟨hmisses,hcalls ▸ hrest⟩

theorem Tallies.bind {p : Plan Note α} {f : α → Plan Note β} (h : p.Tallies)
    (hf : ∀ a, (f a).Tallies) : (p.bind f).Tallies := by
  intro choice s
  rw [run_bind]
  exact (h choice s).append (hf _ choice _)

theorem Tallies.and_then {ε : Type} {p : Plan Note (Except ε α)} {f : α → Plan Note (Except ε β)}
    (h : p.Tallies) (hf : ∀ a, (f a).Tallies) : (p.andThen f).Tallies := by
  apply h.bind
  intro r
  cases r with
  | ok a => exact hf a
  | error e => exact tallies_done _

theorem Tallies.note {p : Plan Note α} (h : p.Tallies) {n : Note} (hn : n.isNeutral = true) :
    (Plan.note n p).Tallies :=
  fun choice s => (h choice s).note hn

/-- The plan makes no notes, and the ledger counts so many of its calls as what it gives says. -/
def Asks (counted : Except ResolveError α → Nat) (p : Steps α) : Prop :=
  ∀ (choice : SpecChoice) (s : Site Ledger), (p.run choice s).notes = [] ∧
    (p.run choice s).site.store.getOrCreateCalls =
      s.store.getOrCreateCalls + counted (p.run choice s).value

theorem asks_done {counted : Except ResolveError α → Nat} {r : Except ResolveError α}
    (h : counted r = 0) : (done r : Steps α).Asks counted :=
  fun _ s => ⟨rfl,congrArg (s.store.getOrCreateCalls + ·) h.symm⟩

theorem Asks.after {p : Steps β} {f : β → Steps α} {counted : Except ResolveError α → Nat}
    (hf : ∀ a, (f a).Asks counted) (he : ∀ e, counted (.error e) = 0)
    (h : p.Asks fun _ => 0) : (p.andThen f).Asks counted := by
  intro choice s
  obtain ⟨hnotes,hcalls⟩ := h choice s
  rw [Plan.andThen, run_bind]
  generalize p.run choice s = o at *
  obtain ⟨value,site,notes⟩ := o
  simp only [Nat.add_zero] at hcalls
  simp only at hnotes
  rw [hnotes, ← hcalls]
  cases value with
  | ok a => exact hf a choice site
  | error e => exact asks_done (he e) choice site

theorem Asks.makes {counted : Except ResolveError α → Nat} {p : Steps α} (h : p.Asks counted)
    (q : Note → Bool) : p.Makes q 0 := by
  intro choice s
  rw [(h choice s).1, List.countP_nil]

end Plan

open Plan

def onSuccess (r : Except ResolveError Int) : Nat := if isOk r then 1 else 0

theorem asks_get_or_create (draft : Draft) : (askStore (.getOrCreate draft)).Asks onSuccess := by
  intro choice s
  refine ⟨rfl,(get_or_create_calls_get_or_create choice draft s.store).trans ?_⟩
  show _ + _ = _ + onSuccess ((s.store.answer choice (.getOrCreate draft)).1.mapError _)
  cases (s.store.answer choice (.getOrCreate draft)).1 <;> rfl

theorem asks_spec_by_hash (hash : String) : (askStore (.specByHash hash)).Asks fun _ => 0 :=
  fun choice s => ⟨rfl,get_or_create_calls_answer choice (.specByHash hash) s.store fun _ => nofun⟩

theorem asks_spec_for (p : Policy) (hash : String) : (specFor p hash).Asks fun _ => 0 := by
  unfold specFor
  cases p.specText with
  | some spec =>
    simp only
    cases Spec.canonical spec <;> exact asks_done rfl
  | none =>
    refine Asks.after ?_ (fun _ => rfl) (asks_spec_by_hash hash)
    intro found
    cases found <;> exact asks_done rfl

/-- A miss is noted with its outcome, and the ledger has counted the same. -/
theorem tallies_identify (key : NaturalKey) {fetch : Steps Int} (h : fetch.Asks onSuccess) :
    (identify key fetch).Tallies := by
  intro choice s
  rw [identify, run]
  simp only [Action.perform]
  cases s.cache.lookup key with
  | some id => exact (tally_nil rfl).note rfl
  | none =>
    obtain ⟨hnotes,hcalls⟩ := h choice s
    simp only [run, run_bind]
    generalize fetch.run choice s = o at *
    obtain ⟨value,site,notes⟩ := o
    simp only at hnotes hcalls
    rw [hnotes]
    cases value with
    | ok id =>
      have hlog : Tally [.log (.identityResolved key.kind id)] site.store site.store :=
        (tally_nil rfl).note rfl
      exact (tally_miss key.kind true hcalls).append hlog
    | error e => exact tally_miss key.kind false hcalls

/-- Of the notes that a resolution of this kind makes, those of lookups are of this sort, if any
are at all. -/
structure Sorts (q : Note → Bool) (kind : Kind) (looked : Bool) : Prop where
  lookup : ∀ hit, q (.cacheLookup kind hit) = looked
  attempt : ∀ ok, q (.getOrCreate kind ok) = false
  log : ∀ entry, q (.log entry) = false

theorem sorts_is_lookup (kind kind' : Kind) : Sorts (Note.isLookup kind) kind' (kind' = kind) :=
  ⟨fun _ => rfl,fun _ => rfl,fun _ => rfl⟩

theorem sorts_is_request (kind : Kind) : Sorts Note.isRequest kind false :=
  ⟨fun _ => rfl,fun _ => rfl,fun _ => rfl⟩

theorem makes_identify {q : Note → Bool} {looked : Bool} {key : NaturalKey} {fetch : Steps Int}
    (hq : Sorts q key.kind looked) (h : fetch.Asks onSuccess) :
    (identify key fetch).Makes q (if looked then 1 else 0) := by
  have hsettle : ∀ attempt, (settleMiss key attempt).Makes q 0 := by
    intro attempt
    cases attempt with
    | ok id =>
      apply Makes.skip _ (hq.attempt true)
      apply Makes.skip _ (hq.log _)
      exact makes_act _ fun _ => makes_done _
    | error e => exact (makes_done _).skip (hq.attempt false)
  apply makes_act
  intro found
  cases found with
  | some id => simpa [hq.lookup] using (makes_done (q := q) _).note (.cacheLookup key.kind true)
  | none =>
    simpa [hq.lookup] using ((h.makes q).bind hsettle).note (.cacheLookup key.kind false)

section Keyed

variable {κ : Type} {own : Except KeyFault κ} {natural : κ → NaturalKey}

theorem resolve_keyed_of_error {fault : KeyFault} (h : own.map natural = .error fault)
    (fetch : κ → Steps Int) :
    resolveKeyed own natural fetch = .done (.error (.unusable fault)) := by
  cases own with
  | error other =>
    cases h
    rfl
  | ok k => exact nomatch h

theorem resolve_keyed_of_ok {key : NaturalKey} (h : own.map natural = .ok key) :
    ∃ k, natural k = key ∧
      ∀ fetch, resolveKeyed own natural fetch = identify key (fetch k) := by
  cases own with
  | error fault => exact nomatch h
  | ok k =>
    cases h
    exact ⟨k,rfl,fun _ => rfl⟩

end Keyed

namespace Entity

theorem resolve_of_unkeyed {x : Entity} {fault : KeyFault} (h : x.key = .error fault) :
    x.resolve = .done (.error (.unusable fault)) := by
  cases x with
  | cluster c => exact resolve_keyed_of_error h _
  | parentPolicy p => exact resolve_keyed_of_error h _
  | policy p => exact resolve_keyed_of_error h _

theorem resolve_of_keyed {x : Entity} {key : NaturalKey} (h : x.key = .ok key) :
    key.kind = x.kind ∧
      ∃ fetch : Steps Int, fetch.Asks onSuccess ∧ x.resolve = identify key fetch := by
  cases x with
  | cluster c =>
    obtain ⟨k,rfl,heq⟩ := resolve_keyed_of_ok h
    exact ⟨rfl,_,asks_get_or_create _,heq _⟩
  | parentPolicy p =>
    obtain ⟨k,rfl,heq⟩ := resolve_keyed_of_ok h
    exact ⟨rfl,_,asks_get_or_create _,heq _⟩
  | policy p =>
    obtain ⟨k,rfl,heq⟩ := resolve_keyed_of_ok h
    have hasks := Asks.after (fun spec => asks_get_or_create (.policy k spec)) (fun _ => rfl)
      (asks_spec_for p k.specHash)
    exact ⟨rfl,_,hasks,heq _⟩

theorem tallies_resolve (x : Entity) : x.resolve.Tallies := by
  cases hk : x.key with
  | error fault =>
    rw [resolve_of_unkeyed hk]
    exact tallies_done _
  | ok key =>
    obtain ⟨_,fetch,hasks,heq⟩ := resolve_of_keyed hk
    rw [heq]
    exact tallies_identify key hasks

theorem makes_resolve {q : Note → Bool} {looked : Bool} {x : Entity} {key : NaturalKey}
    (hq : Sorts q x.kind looked) (h : x.key = .ok key) :
    x.resolve.Makes q (if looked then 1 else 0) := by
  obtain ⟨hkind,fetch,hasks,heq⟩ := resolve_of_keyed h
  rw [heq]
  exact makes_identify (hkind ▸ hq) hasks

end Entity

end ComplianceIntake.Identity
