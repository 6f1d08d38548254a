import ComplianceIntake.Proofs.Identity.Resolution
import ComplianceIntake.Proofs.Intake.Recording

/-!
# What the stages of a request come to

The stages of recording a valid event, run without interruption: resolving a
record for a request, inserting the event, and all of it for a posting. On an
available ledger inserting does not fail. On one that is unavailable nothing
changes, and no request gets further than a refusal that depends on its body
alone.
-/

set_option autoImplicit false

namespace ComplianceIntake.Event

namespace ComplianceEvent.Valid

open ComplianceIntake.Identity

variable {e : ComplianceEvent} {hash : String}

theorem keyed_cluster (h : e.Valid hash) :
    (Entity.cluster e.cluster).Keyed (.cluster e.cluster.naturalKey) :=
  .cluster h.cluster

theorem keyed_parent (h : e.Valid hash) {p : ParentPolicy} (hp : e.parentPolicy = some p) :
    (Entity.parentPolicy p).Keyed (.parentPolicy p.naturalKey) :=
  .parentPolicy (h.parent p hp)

theorem keyed_policy (h : e.Valid hash) :
    (Entity.policy e.policy).Keyed (.policy (e.policy.keyWith hash)) :=
  .policy h.policy h.spec

end ComplianceEvent.Valid

end ComplianceIntake.Event

namespace ComplianceIntake.Intake

open ComplianceIntake.Event
open ComplianceIntake.Store
open ComplianceIntake.Identity
open ComplianceIntake.Journal

variable (choice : SpecChoice) {s : Site Ledger}

theorem result_insert_event (record : EventRecord) (h : s.store.available = true) :
    (insertEvent record).result choice s =
      (.ok (s.store.tables.insertEvent record).1,
        { s with store := { s.store with tables := (s.store.tables.insertEvent record).2 } }) := by
  rw [insertEvent, Plan.result_act, perform_ask choice _ h]
  rfl

theorem result_insert_event_unavailable (record : EventRecord) (h : s.store.available = false) :
    (insertEvent record).result choice s = (.error (.notRecorded Ledger.unavailable), s) := by
  rw [insertEvent, Plan.result_act, perform_ask_unavailable choice _ h]
  rfl

/-- The plan ends in a success or in a failure of the store, and changes nothing. -/
def Stalls {α : Type} (p : Stage α) : Prop :=
  ∀ s : Site Ledger, s.store.available = false →
    (∃ a, p.result choice s = (.ok a, s)) ∨
    ∃ r, r.isFailure = true ∧ p.result choice s = (.error r, s)

variable {choice}

theorem Stalls.and_then {α β : Type} {p : Stage α} {f : α → Stage β} (h : Stalls choice p)
    (hf : ∀ a, Stalls choice (f a)) : Stalls choice (p.andThen f) := by
  intro s hs
  rcases h s hs with ⟨a,ha⟩ | ⟨r,hr,he⟩
  · rw [Plan.result_and_then_ok choice f ha]
    exact hf a s hs
  · exact Or.inr ⟨r,hr,Plan.result_and_then_error choice f he⟩

theorem stalls_resolve_for {x : Entity} {key : NaturalKey} (h : x.Keyed key) :
    Stalls choice (resolveFor x) := by
  intro s hs
  rw [resolveFor, Plan.result_bind]
  rcases resolve_of_unavailable choice h hs with ⟨id,hid⟩ | he
  · rw [hid]
    exact Or.inl ⟨id,rfl⟩
  · rw [he]
    exact Or.inr ⟨_,rfl,rfl⟩

theorem stalls_resolve_parent {e : ComplianceEvent} {hash : String} (h : e.Valid hash) :
    Stalls choice (resolveParent e.parentPolicy) := by
  cases hp : e.parentPolicy with
  | none => exact fun s _ => Or.inl ⟨none,rfl⟩
  | some p =>
    apply (stalls_resolve_for (h.keyed_parent hp)).and_then
    exact fun id s _ => Or.inl ⟨some id,rfl⟩

/-- Where the ledger is unavailable no event is recorded. -/
theorem record_of_unavailable {e : ComplianceEvent} {hash : String} (h : e.Valid hash)
    (hs : s.store.available = false) :
    ∃ r, r.isFailure = true ∧ (record e).result choice s = (.error r, s) := by
  unfold record
  rcases stalls_resolve_for h.keyed_cluster s hs with ⟨clusterId,hc⟩ | ⟨r,hr,hc⟩
  · rw [Plan.result_and_then_ok choice _ hc]
    rcases stalls_resolve_parent h s hs with ⟨parentId,hp⟩ | ⟨r,hr,hp⟩
    · rw [Plan.result_and_then_ok choice _ hp]
      rcases stalls_resolve_for h.keyed_policy s hs with ⟨policyId,hq⟩ | ⟨r,hr,hq⟩
      · rw [Plan.result_and_then_ok choice _ hq]
        have hi := result_insert_event_unavailable choice
          ⟨clusterId, parentId, policyId, e.details⟩ hs
        exact ⟨_,rfl,Plan.result_and_then_error choice _ hi⟩
      · exact ⟨r,hr,Plan.result_and_then_error choice _ hq⟩
    · exact ⟨r,hr,Plan.result_and_then_error choice _ hp⟩
  · exact ⟨r,hr,Plan.result_and_then_error choice _ hc⟩

theorem result_conclude (choice : SpecChoice) (s : Site Ledger) (requestId : String)
    (event : Option ComplianceEvent) (v : Verdict) :
    (conclude requestId event v).result choice s = (v, s) := rfl

theorem result_of_accepted (choice : SpecChoice) (s : Site Ledger) {p : Posting}
    {e : ComplianceEvent} {hash : String} (ha : p.request.accepted = .ok e) (hv : e.Valid hash) :
    p.plan.result choice s = (record (e.completed p.moment.now hash)).result choice s := by
  rw [Posting.plan, ingest_of_accepted _ _ e hash ha hv, Plan.result_bind, result_conclude]

theorem result_of_refused (choice : SpecChoice) (s : Site Ledger) {p : Posting} {refusal : Refusal}
    (ha : p.request.accepted = .error refusal) :
    p.plan.result choice s = (.error refusal, s) := by
  obtain ⟨notes,hn⟩ := ingest_of_refused p.moment p.request refusal ha
  rw [Posting.plan, hn, Plan.result_noting]
  rfl

theorem response_of_is_failure {r : Refusal} (h : r.isFailure = true) :
    responseOf (.error r) = .ofMessage 500 "Internal Error" := by
  simp [responseOf, Refusal.status, Refusal.message, h]

/-- What a posting is answered where the ledger is unavailable depends on its body alone. -/
theorem response_of_unavailable (p : Posting) :
    ∃ response, ∀ (choice : SpecChoice) (s : Site Ledger), s.store.available = false →
      ∃ r, p.plan.result choice s = (.error r, s) ∧ responseOf (.error r) = response := by
  cases ha : p.request.accepted with
  | error refusal =>
    exact ⟨responseOf (.error refusal),
      fun choice s _ => ⟨refusal,result_of_refused choice s ha,rfl⟩⟩
  | ok e =>
    obtain ⟨hash,hv⟩ := p.request.valid_of_accepted e ha
    refine ⟨.ofMessage 500 "Internal Error",?_⟩
    intro choice s hs
    obtain ⟨r,hr,hrec⟩ := record_of_unavailable (hv.completed p.moment.now) hs
    exact ⟨r,(result_of_accepted choice s ha hv).trans hrec,response_of_is_failure hr⟩

end ComplianceIntake.Intake
