import ComplianceIntake.Proofs.Event.Labels
import ComplianceIntake.Proofs.Event.Validity

/-!
# Keys in normal form

A text in normal form is not empty and has no blank at either end, a list of
labels in normal form is strictly ascending besides, and the hash in a policy's
key has the shape of a hash. Whatever key is derived from a record is in normal
form, so two keys that are written differently mean different things.
-/

set_option autoImplicit false

namespace ComplianceIntake.Text

def Trimmed (s : String) : Prop := s ≠ "" ∧ trim s = s

theorem trimmed_of_supplied? {s t : String} (h : supplied? s = some t) : Trimmed t := by
  obtain ⟨rfl,hne⟩ := supplied?_eq_some h
  exact ⟨hne,trim_trim s⟩

end ComplianceIntake.Text

namespace ComplianceIntake.Event

open ComplianceIntake.Text

def NormalLabels (labels : List String) : Prop :=
  labels.Pairwise (below · ·) ∧ ∀ l ∈ labels, Trimmed l

structure ParentPolicyKey.Normal (key : ParentPolicyKey) : Prop where
  name : Trimmed key.name
  space : Trimmed key.space
  categories : NormalLabels key.categories
  controls : NormalLabels key.controls
  standards : NormalLabels key.standards

structure PolicyKey.Normal (key : PolicyKey) : Prop where
  name : Trimmed key.name
  space : Trimmed key.space
  hash : Spec.isHash key.specHash = true

theorem normal_labels_normal_labels (labels : List String) :
    NormalLabels (normalLabels labels) := by
  constructor
  · exact pairwise_ascending _
  · intro l hl
    obtain ⟨_,_,hs⟩ := (mem_normal_labels l labels).mp hl
    exact trimmed_of_supplied? hs

theorem trimmed_of_require {field : Field} {s t : String} (h : require field s = .ok t) :
    t = trim s ∧ Trimmed t := by
  unfold require at h
  cases hs : supplied? s with
  | none => simp [hs] at h
  | some u =>
    simp only [hs, Except.ok.injEq] at h
    subst h
    exact ⟨(supplied?_eq_some hs).1,trimmed_of_supplied? hs⟩

theorem Cluster.trimmed_of_key {c : Cluster} {key : ClusterKey} (h : c.key = .ok key) :
    Trimmed key.identifier := by
  simp only [Cluster.key, bind_eq_ok_iff] at h
  obtain ⟨_,hr,hkey⟩ := h
  obtain ⟨rfl,ht⟩ := trimmed_of_require hr
  cases hkey
  exact ht

theorem ParentPolicy.normal_of_key {p : ParentPolicy} {key : ParentPolicyKey}
    (h : p.key = .ok key) : key.Normal := by
  simp only [ParentPolicy.key, bind_eq_ok_iff] at h
  obtain ⟨_,hn,_,hs,hkey⟩ := h
  obtain ⟨rfl,hname⟩ := trimmed_of_require hn
  obtain ⟨rfl,hspace⟩ := trimmed_of_require hs
  cases hkey
  exact ⟨hname,hspace,normal_labels_normal_labels _,normal_labels_normal_labels _,
    normal_labels_normal_labels _⟩

theorem Policy.normal_of_key {p : Policy} {key : PolicyKey} (h : p.key = .ok key)
    (hshape : Spec.isHash key.specHash = true) : key.Normal := by
  unfold Policy.key at h
  split at h
  · contradiction
  · contradiction
  · next hash _ =>
    simp only [bind_eq_ok_iff] at h
    obtain ⟨_,hn,_,hs,hkey⟩ := h
    cases hkey
    exact ⟨(trimmed_of_require hn).2,(trimmed_of_require hs).2,hshape⟩

end ComplianceIntake.Event
