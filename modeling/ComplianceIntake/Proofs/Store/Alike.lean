import Mathlib.Data.List.Forall2
import ComplianceIntake.Proofs.Spec.Hash
import ComplianceIntake.Proofs.Store.Growth

/-!
# Tables that are alike

Two ledgers are alike when they have the same rows under the same ids, but for
what a display name says and for which of several texts of one specification
was stored. How far those texts may differ is a parameter. The same call on
ledgers that are alike has the same answer and leaves them alike.
-/

set_option autoImplicit false

namespace ComplianceIntake.Store

open ComplianceIntake.Event

/-- Whether two texts may stand for the specification with this hash. -/
abbrev SpecRel := String → String → String → Prop

namespace SpecRel

def same : SpecRel := fun _ => Eq

/-- Texts may differ as long as both have the hash. -/
def hashed : SpecRel :=
  fun hash spec spec' => Spec.hash spec = .ok hash ∧ Spec.hash spec' = .ok hash

/-- Texts may differ as long as both have the same canonical text. -/
def canonical : SpecRel := fun _ spec spec' =>
  ∃ text, Spec.canonical spec = .ok text ∧ Spec.canonical spec' = .ok text

theorem canonical_of_hashed {specs : String → Prop} (hfree : Spec.CollisionFree specs)
    {hash spec spec' : String} (h : hashed hash spec spec') (hspec : specs spec)
    (hspec' : specs spec') : canonical hash spec spec' := by
  obtain ⟨text,htext,hsha⟩ := Spec.canonical_of_hash spec hash h.1
  obtain ⟨text',htext',hsha'⟩ := Spec.canonical_of_hash spec' hash h.2
  have heq := hfree spec spec' text text' hspec hspec' htext htext' (hsha.trans hsha'.symm)
  exact ⟨text,htext,heq ▸ htext'⟩

/-- Two ways to choose among the texts of a hash lead to texts that may differ. -/
structure Fits (R : SpecRel) (c c' : SpecChoice) : Prop where
  own : ∀ hash spec, Spec.hash spec = .ok hash → R hash spec spec
  pick : ∀ hash specs specs', List.Forall₂ (R hash) specs specs' →
    Option.Rel (R hash) (c.pick? specs) (c'.pick? specs')

theorem fits_same (c : SpecChoice) : same.Fits c c := by
  constructor
  · exact fun _ _ _ => rfl
  · intro hash specs specs' h
    rw [same, List.forall₂_eq_eq_eq] at h
    subst h
    cases c.pick? specs with
    | none => exact .none
    | some spec => exact .some rfl

theorem hash_of_hashed {hash : String} {specs specs' : List String}
    (h : List.Forall₂ (hashed hash) specs specs') : ∀ spec ∈ specs, Spec.hash spec = .ok hash :=
  ((List.forall₂_and_left specs specs').mp h).1

theorem hashed_swap {hash : String} {specs specs' : List String}
    (h : List.Forall₂ (hashed hash) specs specs') : List.Forall₂ (hashed hash) specs' specs :=
  (h.imp fun _ _ hs => hs.symm).flip

theorem fits_hashed (c c' : SpecChoice) : hashed.Fits c c' := by
  constructor
  · exact fun _ _ h => ⟨h,h⟩
  · intro hash specs specs' h
    have hleft := hash_of_hashed h
    have hright := hash_of_hashed (hashed_swap h)
    cases h with
    | nil => exact .none
    | @cons spec spec' rest rest' _ _ =>
      exact .some ⟨hleft _ (c.pick_mem spec rest),hright _ (c'.pick_mem spec' rest')⟩

end SpecRel

structure PolicyRow.Like (R : SpecRel) (r s : PolicyRow) : Prop where
  key : r.key = s.key
  id : r.id = s.id
  spec : R r.key.specHash r.spec s.spec

inductive Draft.Like (R : SpecRel) : Draft → Draft → Prop
  | cluster (key : ClusterKey) (name : Option String) :
      Like R (.cluster key name) (.cluster key name)
  | parentPolicy (key : ParentPolicyKey) : Like R (.parentPolicy key) (.parentPolicy key)
  | policy (key : PolicyKey) {spec spec' : String} (h : R key.specHash spec spec') :
      Like R (.policy key spec) (.policy key spec')

theorem Draft.Like.key_eq {R : SpecRel} {d d' : Draft} (h : d.Like R d') : d.key = d'.key := by
  cases h <;> rfl

namespace Tables

structure Alike (R : SpecRel) (t u : Tables) : Prop where
  lastId : t.lastId = u.lastId
  clusters : t.clusters.map (fun r => (r.key, r.id)) = u.clusters.map (fun r => (r.key, r.id))
  parentPolicies : t.parentPolicies = u.parentPolicies
  policies : List.Forall₂ (PolicyRow.Like R) t.policies u.policies
  events : t.events = u.events

variable {R : SpecRel} {t u : Tables}

theorem alike_empty (R : SpecRel) : Alike R {} {} := ⟨rfl,rfl,rfl,.nil,rfl⟩

theorem forall₂_canonical {specs : String → Prop} (hfree : Spec.CollisionFree specs)
    {rows rows' : List PolicyRow} (h : List.Forall₂ (PolicyRow.Like .hashed) rows rows')
    (hrows : ∀ row ∈ rows, specs row.spec) (hrows' : ∀ row ∈ rows', specs row.spec) :
    List.Forall₂ (PolicyRow.Like .canonical) rows rows' := by
  induction h with
  | nil => exact .nil
  | cons hrow _ ih =>
    obtain ⟨hspec,hrest⟩ := List.forall_mem_cons.mp hrows
    obtain ⟨hspec',hrest'⟩ := List.forall_mem_cons.mp hrows'
    have hcanonical := SpecRel.canonical_of_hashed hfree hrow.spec hspec hspec'
    exact .cons ⟨hrow.key,hrow.id,hcanonical⟩ (ih hrest hrest')

theorem Alike.canonical {specs : String → Prop} (h : t.Alike .hashed u)
    (hfree : Spec.CollisionFree specs) (ht : ∀ row ∈ t.policies, specs row.spec)
    (hu : ∀ row ∈ u.policies, specs row.spec) : t.Alike .canonical u :=
  ⟨h.lastId,h.clusters,h.parentPolicies,forall₂_canonical hfree h.policies ht hu,h.events⟩

theorem Alike.policies_eq (h : t.Alike .same u) : t.policies = u.policies := by
  rw [← List.forall₂_eq_eq_eq]
  apply h.policies.imp
  rintro ⟨key,id,spec⟩ ⟨key',id',spec'⟩ ⟨rfl,rfl,hspec⟩
  cases hspec
  rfl

/-- Tables alike but for display names can take the place of each other. -/
theorem Alike.replace {t' u' : Tables} (h : t.Alike R u) (ht : t.Alike .same t')
    (hu : u.Alike .same u') : t'.Alike R u' := by
  constructor
  · rw [← ht.lastId, h.lastId, hu.lastId]
  · rw [← ht.clusters, h.clusters, hu.clusters]
  · rw [← ht.parentPolicies, h.parentPolicies, hu.parentPolicies]
  · rw [← ht.policies_eq, ← hu.policies_eq]
    exact h.policies
  · rw [← ht.events, h.events, hu.events]

theorem Alike.refl (t : Tables) : t.Alike .same t :=
  ⟨rfl,rfl,rfl,List.forall₂_same.mpr fun _ _ => ⟨rfl,rfl,rfl⟩,rfl⟩

theorem Alike.symm (h : t.Alike .same u) : u.Alike .same t := by
  have hpolicies : List.Forall₂ (PolicyRow.Like .same) u.policies t.policies := by
    rw [h.policies_eq]
    exact (Alike.refl u).policies
  exact ⟨h.lastId.symm,h.clusters.symm,h.parentPolicies.symm,hpolicies,h.events.symm⟩

theorem alike_update (t : Tables) (draft : Draft) : t.Alike .same (t.update draft) := by
  cases draft with
  | cluster key name =>
    have hclusters : t.clusters.map (fun r => (r.key, r.id)) =
        (t.clusters.map (rename key name)).map (fun r => (r.key, r.id)) := by
      simp [Function.comp_def]
    exact ⟨rfl,hclusters,rfl,(Alike.refl t).policies,rfl⟩
  | parentPolicy key => exact .refl t
  | policy key spec => exact .refl t

theorem Alike.rows_eq (h : t.Alike R u) : t.rows = u.rows := by
  have hclusters := congrArg (List.map fun x : ClusterKey × Int => (NaturalKey.cluster x.1, x.2))
    h.clusters
  have hpolicies : t.policies.map (fun r => (NaturalKey.policy r.key, r.id)) =
      u.policies.map (fun r => (NaturalKey.policy r.key, r.id)) := by
    rw [← List.forall₂_eq_eq_eq, List.forall₂_map_left_iff, List.forall₂_map_right_iff]
    exact h.policies.imp fun r s hr => by rw [hr.key, hr.id]
  simp only [List.map_map, Function.comp_def] at hclusters
  rw [rows, rows, hclusters, h.parentPolicies, hpolicies]

theorem Alike.id?_eq (h : t.Alike R u) (key : NaturalKey) : t.id? key = u.id? key := by
  rw [id?_eq_find?, id?_eq_find?, h.rows_eq]

theorem Alike.specs_of (h : t.Alike R u) (hash : String) :
    List.Forall₂ (R hash) (t.specsOf hash) (u.specsOf hash) := by
  have hp := h.policies
  unfold Tables.specsOf
  generalize t.policies = rows at hp ⊢
  generalize u.policies = rows' at hp ⊢
  induction hp with
  | nil => exact .nil
  | @cons r s rows rows' hrs _ ih =>
    have hkey : s.key.specHash = r.key.specHash := by rw [hrs.key]
    simp only [List.filter_cons, hkey]
    by_cases hh : r.key.specHash = hash
    · simp only [hh, decide_true, if_true, List.map_cons]
      exact .cons (hh ▸ hrs.spec) ih
    · simp only [hh, decide_false, Bool.false_eq_true, if_false]
      exact ih

theorem Alike.update (h : t.Alike R u) (d d' : Draft) : (t.update d).Alike R (u.update d') :=
  h.replace (t.alike_update d) (u.alike_update d')

theorem Alike.create (h : t.Alike R u) {d d' : Draft} (hd : d.Like R d') :
    (t.create d).Alike R (u.create d') := by
  have hid : t.lastId + 1 = u.lastId + 1 := by rw [h.lastId]
  cases hd with
  | cluster key name =>
    have hclusters : (t.create (.cluster key name)).clusters.map (fun r => (r.key, r.id)) =
        (u.create (.cluster key name)).clusters.map (fun r => (r.key, r.id)) := by
      simp [Tables.create, h.clusters, hid]
    exact ⟨hid,hclusters,h.parentPolicies,h.policies,h.events⟩
  | parentPolicy key =>
    have hparents : (t.create (.parentPolicy key)).parentPolicies =
        (u.create (.parentPolicy key)).parentPolicies := by
      simp [Tables.create, h.parentPolicies, hid]
    exact ⟨hid,h.clusters,hparents,h.policies,h.events⟩
  | @policy key spec spec' hspec =>
    have hrow : PolicyRow.Like R ⟨key, t.lastId + 1, spec⟩ ⟨key, u.lastId + 1, spec'⟩ :=
      ⟨rfl,hid,hspec⟩
    exact ⟨hid,h.clusters,h.parentPolicies,List.rel_append h.policies (.cons hrow .nil),h.events⟩

theorem Alike.get_or_create (h : t.Alike R u) {d d' : Draft} (hd : d.Like R d') :
    (t.getOrCreate d).1 = (u.getOrCreate d').1 ∧
      (t.getOrCreate d).2.Alike R (u.getOrCreate d').2 := by
  unfold Tables.getOrCreate
  rw [← hd.key_eq, ← h.id?_eq]
  cases t.id? d.key with
  | some id => exact ⟨rfl,h.update d d'⟩
  | none => exact ⟨by rw [h.lastId],h.create hd⟩

theorem Alike.insert_event (h : t.Alike R u) (record : EventRecord) :
    (t.insertEvent record).1 = (u.insertEvent record).1 ∧
      (t.insertEvent record).2.Alike R (u.insertEvent record).2 := by
  have hid : (t.insertEvent record).1 = (u.insertEvent record).1 := by
    simp [Tables.insertEvent, h.lastId]
  have hevents : (t.insertEvent record).2.events = (u.insertEvent record).2.events := by
    simp [Tables.insertEvent, h.lastId, h.events]
  exact ⟨hid,hid,h.clusters,h.parentPolicies,h.policies,hevents⟩

end Tables

end ComplianceIntake.Store
