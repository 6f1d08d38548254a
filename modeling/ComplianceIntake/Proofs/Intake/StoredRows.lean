import ComplianceIntake.Proofs.Event.NormalKeys
import ComplianceIntake.Proofs.Intake.Runs

/-!
# Stored rows are in normal form

Every row of a ledger that is filled by requests has its key in normal form,
and the text of every policy has the very hash that is in the key. A text that
comes with its hash was compared with it by validation; one that was found by a
hash is that of a row, for which this was so before. One wrong row would spread
to all policies that refer to its hash, so it takes an invariant to exclude it.
-/

set_option autoImplicit false

namespace ComplianceIntake.Store

open ComplianceIntake.Event
open ComplianceIntake.Identity
open ComplianceIntake.Text

/-- Keys in normal form, and policies stored with texts of the hash in their key. -/
structure Tables.Normal (t : Tables) : Prop where
  clusters : ∀ row ∈ t.clusters, Trimmed row.key.identifier
  parentPolicies : ∀ row ∈ t.parentPolicies, row.key.Normal
  policies : ∀ row ∈ t.policies, row.key.Normal ∧ Spec.hash row.spec = .ok row.key.specHash

def Draft.Normal : Draft → Prop
  | .cluster key _ => Trimmed key.identifier
  | .parentPolicy key => key.Normal
  | .policy key spec => key.Normal ∧ Spec.hash spec = .ok key.specHash

def Call.Normal : Call → Prop
  | .getOrCreate draft => draft.Normal
  | _ => True

namespace Tables.Normal

variable {t : Tables}

theorem empty : Tables.Normal {} :=
  ⟨fun _ h => absurd h List.not_mem_nil,fun _ h => absurd h List.not_mem_nil,
    fun _ h => absurd h List.not_mem_nil⟩

theorem update (h : t.Normal) (draft : Draft) : (t.update draft).Normal := by
  cases draft with
  | cluster key name =>
    refine ⟨?_,h.parentPolicies,h.policies⟩
    intro row hrow
    obtain ⟨old,hold,rfl⟩ := List.mem_map.mp hrow
    rw [rename_key]
    exact h.clusters old hold
  | parentPolicy key => exact h
  | policy key spec => exact h

theorem create (h : t.Normal) {draft : Draft} (hd : draft.Normal) : (t.create draft).Normal := by
  cases draft with
  | cluster key name =>
    refine ⟨?_,h.parentPolicies,h.policies⟩
    exact List.forall_mem_append.mpr ⟨h.clusters,List.forall_mem_singleton.mpr hd⟩
  | parentPolicy key =>
    refine ⟨h.clusters,?_,h.policies⟩
    exact List.forall_mem_append.mpr ⟨h.parentPolicies,List.forall_mem_singleton.mpr hd⟩
  | policy key spec =>
    refine ⟨h.clusters,h.parentPolicies,?_⟩
    exact List.forall_mem_append.mpr ⟨h.policies,List.forall_mem_singleton.mpr hd⟩

theorem get_or_create (h : t.Normal) {draft : Draft} (hd : draft.Normal) :
    (t.getOrCreate draft).2.Normal := by
  unfold Tables.getOrCreate
  split
  · exact h.update draft
  · exact h.create hd

theorem hash_of_specs_of (h : t.Normal) {hash spec : String} (hs : spec ∈ t.specsOf hash) :
    Spec.hash spec = .ok hash := by
  obtain ⟨row,hrow,rfl,rfl⟩ := (mem_specs_of_iff t hash spec).mp hs
  exact (h.policies row hrow).2

end Tables.Normal

/-- Whichever row answers for a hash, calls for drafts in normal form keep the tables so. -/
theorem preserved_normal : Preserved Tables.Normal Call.Normal := by
  intro choice c l hc h
  cases c with
  | getOrCreate draft => exact h.get_or_create hc
  | specByHash hash => exact h
  | insertEvent record => exact ⟨h.clusters,h.parentPolicies,h.policies⟩
  | ping => exact h

end ComplianceIntake.Store

namespace ComplianceIntake.Intake

open ComplianceIntake.Event
open ComplianceIntake.Store
open ComplianceIntake.Identity

/-- The draft for a valid policy has a text of the hash in its key: its own text, which validation
compared with the hash, or that of a row. -/
theorem normal_of_drafts {e : ComplianceEvent} {hash : String} (h : e.Valid hash) {t : Tables}
    (ht : t.Normal) {d : Draft} (hd : (Entity.policy e.policy).Drafts t d) : d.Normal := by
  obtain ⟨key,spec,hkey,rfl,hspec⟩ := hd
  cases h.policy.symm.trans hkey
  have hnormal := Policy.normal_of_key h.policy h.shape
  rcases hspec with hown | ⟨_,hrow⟩
  · exact ⟨hnormal,h.spec spec hown⟩
  · exact ⟨hnormal,ht.hash_of_specs_of hrow⟩

theorem entitles_normal : Run.Entitles Tables.Normal Call.Normal := by
  intro p e hash _ hv
  have hc := hv.completed p.moment.now
  constructor
  · rintro t d _ ⟨key,hkey,rfl⟩
    exact Cluster.trimmed_of_key hkey
  · rintro t d q _ _ ⟨key,hkey,rfl⟩
    exact ParentPolicy.normal_of_key hkey
  · exact fun t d ht hd => normal_of_drafts hc ht hd
  · exact fun _ => trivial
  · exact fun _ _ => trivial

theorem Run.kept_normal (ms : List Move) : (({} : Run).moves ms).Kept Tables.Normal :=
  (Run.kept_empty Tables.Normal.empty).moves preserved_normal entitles_normal ms

/-- After any run from an empty ledger, whatever failed in it and whichever rows answered for
hashes, every stored text of a policy has the hash in the policy's key, and all keys are in normal
form. -/
theorem stored_rows_normal (ms : List Move) : (({} : Run).moves ms).tables.Normal :=
  (Run.kept_normal ms).fleet.tables

end ComplianceIntake.Intake
