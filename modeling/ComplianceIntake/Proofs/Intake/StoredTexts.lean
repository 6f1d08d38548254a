import ComplianceIntake.Proofs.Event.Texts
import ComplianceIntake.Proofs.Intake.Reach
import ComplianceIntake.Proofs.Intake.Receipts

/-!
# Stored texts

No text in the tables comes from nowhere: it was sent with an event or filled in
for it, perhaps trimmed, or it is the specification of another row. What is true
of all texts that pass validation, and is not lost by trimming, is true of all
that is stored. So no NUL is ever stored, at whatever depth of an event's metadata.
-/

set_option autoImplicit false

namespace ComplianceIntake.Store

open ComplianceIntake.Event
open ComplianceIntake.Identity

def ClusterRow.texts (row : ClusterRow) : List String :=
  (NaturalKey.cluster row.key).texts ++ row.name.toList

def ParentPolicyRow.texts (row : ParentPolicyRow) : List String :=
  (NaturalKey.parentPolicy row.key).texts

def PolicyRow.texts (row : PolicyRow) : List String :=
  (NaturalKey.policy row.key).texts ++ [row.spec]

def EventRow.texts (row : EventRow) : List String := row.record.details.texts

def Tables.texts (t : Tables) : List String :=
  t.clusters.flatMap ClusterRow.texts ++ t.parentPolicies.flatMap ParentPolicyRow.texts
    ++ t.policies.flatMap PolicyRow.texts ++ t.events.flatMap EventRow.texts

def Draft.texts : Draft → List String
  | .cluster key name => (NaturalKey.cluster key).texts ++ name.toList
  | .parentPolicy key => (NaturalKey.parentPolicy key).texts
  | .policy key spec => (NaturalKey.policy key).texts ++ [spec]

def Call.texts : Call → List String
  | .getOrCreate draft => draft.texts
  | .specByHash _ => []
  | .insertEvent record => record.details.texts
  | .ping => []

variable {P : String → Prop}

structure Tables.Holds (P : String → Prop) (t : Tables) : Prop where
  clusters : ∀ row ∈ t.clusters, ∀ s ∈ row.texts, P s
  parentPolicies : ∀ row ∈ t.parentPolicies, ∀ s ∈ row.texts, P s
  policies : ∀ row ∈ t.policies, ∀ s ∈ row.texts, P s
  events : ∀ row ∈ t.events, ∀ s ∈ row.texts, P s

namespace Tables.Holds

variable {t : Tables}

theorem texts (h : t.Holds P) : ∀ s ∈ t.texts, P s := by
  simp only [Tables.texts, List.forall_mem_append, List.forall_mem_flatMap]
  exact ⟨⟨⟨h.clusters,h.parentPolicies⟩,h.policies⟩,h.events⟩

theorem empty : Tables.Holds P {} :=
  ⟨List.forall_mem_nil _,List.forall_mem_nil _,List.forall_mem_nil _,List.forall_mem_nil _⟩

theorem update (h : t.Holds P) {draft : Draft} (hd : ∀ s ∈ draft.texts, P s) :
    (t.update draft).Holds P := by
  cases draft with
  | cluster key name =>
    refine ⟨?_,h.parentPolicies,h.policies,h.events⟩
    intro row hrow
    obtain ⟨old,hold,rfl⟩ := List.mem_map.mp hrow
    have hrowtexts := h.clusters old hold
    unfold rename
    split
    · simp only [ClusterRow.texts, Draft.texts, List.forall_mem_append] at hrowtexts hd ⊢
      refine ⟨hrowtexts.1,?_⟩
      cases name with
      | none => exact hrowtexts.2
      | some name => exact hd.2
    · exact hrowtexts
  | parentPolicy key => exact h
  | policy key spec => exact h

theorem create (h : t.Holds P) {draft : Draft} (hd : ∀ s ∈ draft.texts, P s) :
    (t.create draft).Holds P := by
  cases draft with
  | cluster key name =>
    refine ⟨?_,h.parentPolicies,h.policies,h.events⟩
    exact List.forall_mem_append.mpr ⟨h.clusters,List.forall_mem_singleton.mpr hd⟩
  | parentPolicy key =>
    refine ⟨h.clusters,?_,h.policies,h.events⟩
    exact List.forall_mem_append.mpr ⟨h.parentPolicies,List.forall_mem_singleton.mpr hd⟩
  | policy key spec =>
    refine ⟨h.clusters,h.parentPolicies,?_,h.events⟩
    exact List.forall_mem_append.mpr ⟨h.policies,List.forall_mem_singleton.mpr hd⟩

theorem get_or_create (h : t.Holds P) {draft : Draft} (hd : ∀ s ∈ draft.texts, P s) :
    (t.getOrCreate draft).2.Holds P := by
  unfold Tables.getOrCreate
  split
  · exact h.update hd
  · exact h.create hd

theorem insert_event (h : t.Holds P) {record : EventRecord} (hd : ∀ s ∈ record.details.texts, P s) :
    (t.insertEvent record).2.Holds P := by
  refine ⟨h.clusters,h.parentPolicies,h.policies,?_⟩
  exact List.forall_mem_append.mpr ⟨h.events,List.forall_mem_singleton.mpr hd⟩

theorem of_specs_of (h : t.Holds P) {hash spec : String} (hs : spec ∈ t.specsOf hash) : P spec := by
  obtain ⟨row,hrow,_,rfl⟩ := (mem_specs_of_iff t hash spec).mp hs
  exact h.policies row hrow row.spec (by simp [PolicyRow.texts])

end Tables.Holds

theorem preserved_holds (P : String → Prop) :
    Preserved (Tables.Holds P) fun c => ∀ s ∈ c.texts, P s := by
  intro choice c l hc h
  cases c with
  | getOrCreate draft => exact h.get_or_create hc
  | specByHash hash => exact h
  | insertEvent record => exact h.insert_event hc
  | ping => exact h

end ComplianceIntake.Store

namespace ComplianceIntake.Intake

open ComplianceIntake.Event
open ComplianceIntake.Store
open ComplianceIntake.Identity
open ComplianceIntake.Text

variable {P : String → Prop}

theorem forall_display_name (htrim : ∀ s, P s → P (trim s)) {c : Cluster} (h : ∀ s ∈ c.texts, P s) :
    ∀ s ∈ c.displayName.toList, P s := by
  intro s hs
  obtain ⟨name,hname,hsupplied⟩ := Option.bind_eq_some_iff.mp (Option.mem_toList.mp hs)
  rw [(supplied?_eq_some hsupplied).1]
  exact htrim name (h name (by simp [Cluster.texts, hname]))

/-- An event whose texts are all of the kind brings only such texts to the tables. -/
theorem entitled_holds (htrim : ∀ s, P s → P (trim s)) {e : ComplianceEvent} {hash : String}
    (hv : e.Valid hash) (hhash : P hash) (h : ∀ s ∈ e.texts, P s) :
    Entitled (Tables.Holds P) (fun c => ∀ s ∈ c.texts, P s) e := by
  simp only [ComplianceEvent.texts, List.forall_mem_append, List.forall_mem_flatMap] at h
  obtain ⟨⟨⟨hcluster,hparent⟩,hpolicy⟩,hdetails⟩ := h
  constructor
  · rintro t d _ ⟨key,hkey,rfl⟩
    cases hv.cluster.symm.trans hkey
    exact List.forall_mem_append.mpr ⟨e.cluster.forall_key htrim hcluster,
      forall_display_name htrim hcluster⟩
  · rintro t d p _ hp ⟨key,hkey,rfl⟩
    cases (hv.parent p hp).symm.trans hkey
    exact p.forall_key htrim (hparent p (by simp [hp]))
  · rintro t d ht ⟨key,spec,hkey,rfl,hspec⟩
    cases hv.policy.symm.trans hkey
    refine List.forall_mem_append.mpr ⟨e.policy.forall_key htrim hpolicy hhash,?_⟩
    rw [List.forall_mem_singleton]
    rcases hspec with hown | ⟨_,hrow⟩
    · have hsent : e.policy.spec = some spec := (Option.filter_eq_some_iff.mp hown).1
      exact hpolicy spec (by simp [Policy.texts, hsent])
    · exact ht.of_specs_of hrow
  · exact fun _ => List.forall_mem_nil _
  · intro record hrecord
    rw [Call.texts, hrecord]
    exact hdetails

/-- A posting whose time of receipt has no NUL in it stores none, since its event has passed the
search for NUL. -/
theorem qualifies_nul_free {p : Posting} (hnow : NulFree p.moment.now) :
    p.Qualifies (Tables.Holds NulFree) fun c => ∀ s ∈ c.texts, NulFree s := by
  intro e hash ha hv
  obtain ⟨_,_,_,hvalid⟩ := (p.request.accepted_eq_ok_iff e).mp ha
  have hhash := nul_free_of_is_hash hv.shape
  have htexts := ComplianceEvent.forall_texts_completed
    (ComplianceEvent.nul_free_of_validate hvalid) hnow hhash
  exact entitled_holds nul_free_trim (hv.completed _) hhash htexts

/-- No text in any table ever holds a NUL, wherever postings lead and whatever is dropped or fails
on the way; and an event that holds no NUL is never refused for one. -/
theorem stored_texts_nul_free :
    (∀ f : Fleet Ledger, f.ReachedBy (fun p => NulFree p.moment.now) →
      ∀ s ∈ f.store.tables.texts, NulFree s) ∧
    ∀ e : ComplianceEvent, (∀ s ∈ e.texts, NulFree s) →
      ∀ field, e.validate ≠ .error (.holdsNul field) := by
  constructor
  · intro f hf
    exact (hf.kept (preserved_holds NulFree) .empty fun _ => qualifies_nul_free).tables.texts
  · intro e he field h
    have hfound := e.check_nul_of_validate h
    rw [e.check_nul_eq_ok_iff_nul_free.mpr he] at hfound
    contradiction

theorem stored_texts_nul_free_of_spelling :
    let f := (({} : Run).moves [.post spelling]).fleet
    f.store.tables.parentPolicies.map (·.key.name) = ["p"] ∧
      (∀ s ∈ f.store.tables.texts, NulFree s) := by
  intro f
  have hreached : f.ReachedBy fun p => NulFree p.moment.now := by
    apply Fleet.ReachedBy.run
    intro p hp
    cases List.mem_singleton.mp hp
    decide
  exact ⟨by decide +kernel,stored_texts_nul_free.1 f hreached⟩

end ComplianceIntake.Intake
