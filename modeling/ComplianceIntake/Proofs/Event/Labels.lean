import Mathlib.Data.Set.Basic
import ComplianceIntake.Event.Key
import ComplianceIntake.Proofs.Text.Ascending
import ComplianceIntake.Proofs.Text.Trimming

/-!
# Labels as sets

A list of labels stands for the set of what is left of them when they are
trimmed, without the empty text. Two lists have the same normal form exactly
when they stand for the same set, and so two parent policies have the same
natural key exactly when their names, namespaces and sets of labels agree. A
normal form is its own normal form.
-/

set_option autoImplicit false

namespace ComplianceIntake.Event

open ComplianceIntake.Text

/-- The trimmed labels that are not empty. -/
def labelSet (labels : List String) : Set String := {s | s ≠ "" ∧ ∃ l ∈ labels, trim l = s}

structure ParentPolicy.SameIdentity (p q : ParentPolicy) : Prop where
  name : trim p.name = trim q.name
  space : trim p.space = trim q.space
  categories : labelSet p.categories = labelSet q.categories
  controls : labelSet p.controls = labelSet q.controls
  standards : labelSet p.standards = labelSet q.standards

theorem mem_normal_labels_iff (s : String) (labels : List String) :
    s ∈ normalLabels labels ↔ s ∈ labelSet labels := by
  rw [mem_normal_labels]
  constructor
  · rintro ⟨l,hl,hs⟩
    obtain ⟨hne,ht⟩ := (supplied?_eq_some_iff l s).mp hs
    exact ⟨hne,l,hl,ht⟩
  · rintro ⟨hne,l,hl,ht⟩
    exact ⟨l,hl,(supplied?_eq_some_iff l s).mpr ⟨hne,ht⟩⟩

theorem normal_labels_eq_iff (ls ms : List String) :
    normalLabels ls = normalLabels ms ↔ labelSet ls = labelSet ms := by
  constructor
  · intro h
    ext s
    rw [← mem_normal_labels_iff, ← mem_normal_labels_iff, h]
  · intro h
    apply eq_of_pairwise_below _ _ (pairwise_ascending _) (pairwise_ascending _)
    intro s
    show s ∈ normalLabels ls ↔ s ∈ normalLabels ms
    rw [mem_normal_labels_iff, mem_normal_labels_iff, h]

theorem label_set_normal_labels (labels : List String) :
    labelSet (normalLabels labels) = labelSet labels := by
  ext s
  rw [← mem_normal_labels_iff s labels]
  constructor
  · rintro ⟨_,l,hl,rfl⟩
    obtain ⟨_,l',_,rfl⟩ := (mem_normal_labels_iff l labels).mp hl
    rwa [trim_trim]
  · intro hs
    obtain ⟨hne,l,_,rfl⟩ := (mem_normal_labels_iff s labels).mp hs
    exact ⟨hne,trim l,hs,trim_trim l⟩

theorem ParentPolicy.natural_key_eq_iff (p q : ParentPolicy) :
    p.naturalKey = q.naturalKey ↔ p.SameIdentity q := by
  simp only [ParentPolicy.naturalKey, ParentPolicyKey.mk.injEq, normal_labels_eq_iff]
  constructor
  · rintro ⟨hname,hspace,hcat,hcon,hstd⟩
    exact ⟨hname,hspace,hcat,hcon,hstd⟩
  · intro h
    exact ⟨h.name,h.space,h.categories,h.controls,h.standards⟩

/-- Natural keys of parent policies are equal exactly where the trimmed texts and the sets of labels
are. The normal form of a list of labels is their set in strictly ascending order of the octets, and
its own normal form; to trim is to take away the white space of Unicode at both ends. -/
theorem natural_key_iff_label_sets :
    (∀ p q : ParentPolicy, p.naturalKey = q.naturalKey ↔
      trim p.name = trim q.name ∧ trim p.space = trim q.space ∧
        labelSet p.categories = labelSet q.categories ∧ labelSet p.controls = labelSet q.controls ∧
        labelSet p.standards = labelSet q.standards) ∧
    (∀ labels, (normalLabels labels).Pairwise (fun s t => octets s < octets t) ∧
      {s | s ∈ normalLabels labels} = labelSet labels ∧
      normalLabels (normalLabels labels) = normalLabels labels) ∧
    ∀ s t, trim s = t ↔ Trims s t := by
  refine ⟨?_,?_,trim_eq_iff⟩
  · intro p q
    rw [p.natural_key_eq_iff]
    constructor
    · exact fun h => ⟨h.name,h.space,h.categories,h.controls,h.standards⟩
    · rintro ⟨hname,hspace,hcat,hcon,hstd⟩
      exact ⟨hname,hspace,hcat,hcon,hstd⟩
  · intro labels
    have hordered : (normalLabels labels).Pairwise (fun s t => octets s < octets t) :=
      (pairwise_ascending _).imp of_decide_eq_true
    have hset : {s | s ∈ normalLabels labels} = labelSet labels :=
      Set.ext fun s => mem_normal_labels_iff s labels
    have hfixed := (normal_labels_eq_iff _ _).mpr (label_set_normal_labels labels)
    exact ⟨hordered,hset,hfixed⟩

end ComplianceIntake.Event
