import ComplianceIntake.Proofs.Identity.Traces
import ComplianceIntake.Proofs.Store.Growth

/-!
# What a failed resolution leaves behind

A resolution can fail in five places: it has no key, its specification is not
JSON, its hash is unknown, or one of two calls to the store fails. All that it
did until then is idle: lookups in the cache, a lookup of a specification, and
calls that failed themselves. So it leaves the tables and the cache as they
were, and what others do in between is none of its doing.
-/

set_option autoImplicit false

namespace ComplianceIntake.Identity

open ComplianceIntake.Event
open ComplianceIntake.Store
open ComplianceIntake.Journal

/-- Wherever the action is answered like this it leaves the cache and the tables as they are. -/
def Taken.Idle (t : Taken) : Prop :=
  ∀ (choice : SpecChoice) (s : Site Ledger), (t.action.perform choice s).1 = t.answer →
    (t.action.perform choice s).2.cache = s.cache ∧
      (t.action.perform choice s).2.store.tables = s.store.tables

theorem idle_consult (key : NaturalKey) (answer : Option Int) :
    Taken.Idle ⟨.consult key, answer⟩ :=
  fun _ _ _ => ⟨rfl,rfl⟩

theorem idle_spec_by_hash (hash : String) (answer : Except StoreError (Option String)) :
    Taken.Idle ⟨.ask (.specByHash hash), answer⟩ := by
  intro choice s _
  refine ⟨rfl,?_⟩
  show (s.store.answer choice (.specByHash hash)).2.tables = s.store.tables
  rcases s.store.answer_cases choice (.specByHash hash) with ⟨-,h⟩ | ⟨-,h⟩
  · rw [h]
  · rw [h]
    rfl

theorem idle_failure (call : Call) (error : StoreError) :
    Taken.Idle ⟨.ask call, .error error⟩ := by
  intro choice s hanswer
  change (s.store.answer choice call).1 = .error error at hanswer
  refine ⟨rfl,?_⟩
  show (s.store.answer choice call).2.tables = s.store.tables
  rcases s.store.answer_cases choice call with ⟨-,h⟩ | ⟨-,h⟩
  · rw [h]
  · rw [h] at hanswer
    exact nomatch hanswer

/-- A run that is idle throughout leaves the cache and the tables as they were. -/
theorem Plan.run_of_idle {ν α : Type} (choice : SpecChoice) (p : Plan ν α) (s : Site Ledger)
    (h : ∀ t ∈ p.trace choice s, t.Idle) :
    (p.run choice s).site.cache = s.cache ∧
      (p.run choice s).site.store.tables = s.store.tables := by
  induction p generalizing s with
  | done a => exact ⟨rfl,rfl⟩
  | note n rest ih => exact ih s h
  | act action next ih =>
    obtain ⟨hfirst,hrest⟩ := List.forall_mem_cons.mp h
    obtain ⟨hcache,htables⟩ := hfirst choice s rfl
    obtain ⟨hcache',htables'⟩ := ih _ _ hrest
    exact ⟨hcache'.trans hcache,htables'.trans htables⟩

section Resolution

variable {ts : List Taken} {error : ResolveError}

theorem follows_ask_store (call : Call) {r : Except ResolveError call.Answer}
    (h : (askStore call).Follows ts (.done r)) :
    ∃ answer : Except StoreError call.Answer, ts = [⟨.ask call, answer⟩] ∧
      answer.mapError .store = r := by
  cases h with
  | act answer h =>
    obtain ⟨rfl,hr⟩ := Plan.follows_done h
    exact ⟨answer,rfl,hr⟩

theorem idle_of_ask_store (call : Call) (h : (askStore call).Follows ts (.done (.error error))) :
    ∀ t ∈ ts, t.Idle := by
  obtain ⟨answer,rfl,hanswer⟩ := follows_ask_store call h
  rw [List.forall_mem_singleton]
  cases answer with
  | ok a => exact nomatch hanswer
  | error fault => exact idle_failure call fault

theorem idle_of_spec_for {p : Policy} {hash : String} {r : Except ResolveError String}
    (h : (specFor p hash).Follows ts (.done r)) : ∀ t ∈ ts, t.Idle := by
  unfold specFor at h
  split at h
  · split at h <;> rw [(Plan.follows_done h).1] <;> exact List.forall_mem_nil _
  · obtain ⟨found,us,vs,rfl,hask,hrest⟩ := h.of_bind
    obtain ⟨answer,rfl,_⟩ := follows_ask_store (.specByHash hash) hask
    have hnone : vs = [] := by
      match found with
      | .ok (some spec) => exact (Plan.follows_done hrest).1
      | .ok none => exact (Plan.follows_done hrest).1
      | .error e => exact (Plan.follows_done hrest).1
    rw [hnone]
    exact List.forall_mem_singleton.mpr (idle_spec_by_hash hash answer)

theorem follows_settle_miss_error {key : NaturalKey} {attempt : Except ResolveError Int}
    (h : (settleMiss key attempt).Follows ts (.done (.error error))) :
    ts = [] ∧ attempt = .error error := by
  cases attempt with
  | error e =>
    cases h with
    | note h =>
      obtain ⟨hts,he⟩ := Plan.follows_done h
      exact ⟨hts,he⟩
  | ok id =>
    cases h with
    | note h =>
    cases h with
    | note h =>
    cases h with
    | act answer h => exact nomatch (Plan.follows_done h).2

theorem idle_of_identify {key : NaturalKey} {fetch : Steps Int}
    (hfetch : ∀ us, fetch.Follows us (.done (.error error)) → ∀ t ∈ us, t.Idle)
    (h : (identify key fetch).Follows ts (.done (.error error))) : ∀ t ∈ ts, t.Idle := by
  cases h with
  | act answer h =>
    refine List.forall_mem_cons.mpr ⟨idle_consult key answer,?_⟩
    cases answer with
    | some id =>
      cases h with
      | note h => exact nomatch (Plan.follows_done h).2
    | none =>
      cases h with
      | note h =>
        obtain ⟨attempt,us,vs,rfl,hus,hmiss⟩ := h.of_bind
        obtain ⟨rfl,rfl⟩ := follows_settle_miss_error hmiss
        rw [List.append_nil]
        exact hfetch us hus

theorem idle_of_resolve_keyed {κ : Type} {key : Except KeyFault κ} {natural : κ → NaturalKey}
    {fetch : κ → Steps Int}
    (hfetch : ∀ k us, (fetch k).Follows us (.done (.error error)) → ∀ t ∈ us, t.Idle)
    (h : (resolveKeyed key natural fetch).Follows ts (.done (.error error))) :
    ∀ t ∈ ts, t.Idle := by
  cases key with
  | error fault =>
    rw [(Plan.follows_done h).1]
    exact List.forall_mem_nil _
  | ok k => exact idle_of_identify (hfetch k) h

/-- All actions on the way to an error are idle, whatever was answered to them. -/
theorem idle_of_resolve {x : Entity} (h : x.resolve.Follows ts (.done (.error error))) :
    ∀ t ∈ ts, t.Idle := by
  cases x with
  | cluster c => exact idle_of_resolve_keyed (fun _ _ => idle_of_ask_store _) h
  | parentPolicy p => exact idle_of_resolve_keyed (fun _ _ => idle_of_ask_store _) h
  | policy p =>
    refine idle_of_resolve_keyed ?_ h
    intro key us hus
    obtain ⟨r,vs,ws,rfl,hspec,hrest⟩ := hus.of_bind
    refine List.forall_mem_append.mpr ⟨idle_of_spec_for hspec,?_⟩
    cases r with
    | ok spec => exact idle_of_ask_store (.getOrCreate (.policy key spec)) hrest
    | error e =>
      rw [(Plan.follows_done hrest).1]
      exact List.forall_mem_nil _

end Resolution

end ComplianceIntake.Identity
