import ComplianceIntake.Proofs.Event.Echoes
import ComplianceIntake.Proofs.Event.NormalKeys
import ComplianceIntake.Proofs.Json.Values

/-!
# The texts of an event

Every text that an event holds: its fields, the labels of its parent policy, and
the strings and keys of its metadata at every depth. Validation looks for NUL in
all of them and nowhere else. A key is made of trimmed texts of its record, and
the hash of its specification.
-/

set_option autoImplicit false

namespace ComplianceIntake.Text

def NulFree (s : String) : Prop := '\x00' ∉ s.toList

instance (s : String) : Decidable (NulFree s) := inferInstanceAs (Decidable (¬ _))

theorem nul_free_trim (s : String) (h : NulFree s) : NulFree (trim s) :=
  fun hm => h (mem_of_mem_trim hm)

end ComplianceIntake.Text

namespace ComplianceIntake.Json.Value

def ownTexts : Value → List String
  | .string s => [s]
  | .object members => members.map (·.1)
  | _ => []

def texts (v : Value) : List String := v.parts.flatMap ownTexts

theorem forall_mem_texts_iff (v : Value) (P : String → Prop) :
    (∀ s ∈ v.texts, P s) ↔ ∀ p ∈ v.parts, ∀ s ∈ p.ownTexts, P s := by
  rw [texts, List.forall_mem_flatMap]

theorem any_char_in_eq_false_iff (p : Char → Bool) (items : List Value) :
    anyCharIn p items = false ↔ ∀ v ∈ items, v.anyChar p = false := by
  induction items with
  | nil => simp [anyCharIn]
  | cons v vs ih => rw [anyCharIn, Bool.or_eq_false_iff, ih, List.forall_mem_cons]

theorem any_char_in_members_eq_false_iff (p : Char → Bool) (members : List (String × Value)) :
    anyCharInMembers p members = false ↔
      ∀ m ∈ members, m.1.toList.any p = false ∧ m.2.anyChar p = false := by
  induction members with
  | nil => simp [anyCharInMembers]
  | cons m ms ih =>
    rw [anyCharInMembers, Bool.or_eq_false_iff, Bool.or_eq_false_iff, ih, List.forall_mem_cons]

/-- The search for a character comes to every string and every key, however deep. -/
theorem any_char_eq_false_iff (p : Char → Bool) (v : Value) :
    v.anyChar p = false ↔ ∀ s ∈ v.texts, s.toList.any p = false := by
  rw [forall_mem_texts_iff]
  induction v using induct with
  | null => simp [anyChar, parts, ownTexts]
  | bool b => simp [anyChar, parts, ownTexts]
  | number n => simp [anyChar, parts, ownTexts]
  | string s => simp [anyChar, parts, ownTexts]
  | list items ih =>
    rw [anyChar, any_char_in_eq_false_iff, forall_parts_list]
    have hown : ∀ s ∈ (Value.list items).ownTexts, s.toList.any p = false := by simp [ownTexts]
    rw [and_iff_right hown]
    exact forall₂_congr ih
  | object members ih =>
    rw [anyChar, any_char_in_members_eq_false_iff, forall_parts_object, ownTexts,
      List.forall_mem_map, ← forall₂_and]
    exact forall₂_congr fun m hm => and_congr_right fun _ => ih m hm

end ComplianceIntake.Json.Value

namespace ComplianceIntake.Event

open ComplianceIntake.Text

theorem holds_nul_eq_false_iff_nul_free (s : String) : holdsNul s = false ↔ NulFree s := by
  rw [← Bool.not_eq_true]
  exact not_congr (by simp [holdsNul, isNul])

theorem nul_free_of_is_hash {hash : String} (h : Spec.isHash hash = true) : NulFree hash :=
  (holds_nul_eq_false_iff_nul_free hash).mp (ComplianceEvent.holds_nul_of_is_hash h)

def Cluster.texts (c : Cluster) : List String := c.identifier :: c.name.toList

def ParentPolicy.texts (p : ParentPolicy) : List String :=
  p.name :: p.space :: (p.categories ++ p.controls ++ p.standards)

def Policy.texts (p : Policy) : List String :=
  p.name :: p.space :: (p.spec.toList ++ p.specHash.toList)

def Details.texts (d : Details) : List String :=
  d.message.toList ++ d.timestamp.toList ++ d.reportedBy.toList
    ++ d.metadata.toList.flatMap Json.Value.texts

def ComplianceEvent.texts (e : ComplianceEvent) : List String :=
  e.cluster.texts ++ e.parentPolicy.toList.flatMap ParentPolicy.texts ++ e.policy.texts
    ++ e.details.texts

def NaturalKey.texts : NaturalKey → List String
  | .cluster key => [key.identifier]
  | .parentPolicy key => key.name :: key.space :: (key.categories ++ key.controls ++ key.standards)
  | .policy key => [key.name, key.space, key.specHash]

section Keys

variable {P : String → Prop}

/-- What trimming leaves true of a record's texts is true of its key's. -/
theorem Cluster.forall_key (hP : ∀ s, P s → P (trim s)) (c : Cluster) (h : ∀ s ∈ c.texts, P s) :
    ∀ s ∈ (NaturalKey.cluster c.naturalKey).texts, P s :=
  List.forall_mem_singleton.mpr (hP _ (h _ List.mem_cons_self))

theorem forall_normal_labels (hP : ∀ s, P s → P (trim s)) {labels : List String}
    (h : ∀ s ∈ labels, P s) : ∀ s ∈ normalLabels labels, P s := by
  intro s hs
  obtain ⟨label,hlabel,hsupplied⟩ := (mem_normal_labels s labels).mp hs
  rw [(supplied?_eq_some hsupplied).1]
  exact hP label (h label hlabel)

theorem ParentPolicy.forall_key (hP : ∀ s, P s → P (trim s)) (p : ParentPolicy)
    (h : ∀ s ∈ p.texts, P s) : ∀ s ∈ (NaturalKey.parentPolicy p.naturalKey).texts, P s := by
  simp only [texts, NaturalKey.texts, naturalKey, List.forall_mem_cons, List.forall_mem_append]
    at h ⊢
  obtain ⟨hname,hspace,⟨hcategories,hcontrols⟩,hstandards⟩ := h
  exact ⟨hP _ hname,hP _ hspace,⟨forall_normal_labels hP hcategories,
    forall_normal_labels hP hcontrols⟩,forall_normal_labels hP hstandards⟩

theorem Policy.forall_key (hP : ∀ s, P s → P (trim s)) (p : Policy) (h : ∀ s ∈ p.texts, P s)
    {hash : String} (hhash : P hash) :
    ∀ s ∈ (NaturalKey.policy (p.keyWith hash)).texts, P s := by
  simp only [texts, NaturalKey.texts, keyWith, List.forall_mem_cons] at h ⊢
  exact ⟨hP _ h.1,hP _ h.2.1,hhash,List.forall_mem_nil _⟩

end Keys

namespace ComplianceEvent

variable (e : ComplianceEvent)

/-- The search finds a NUL wherever the event holds one, and nowhere else. -/
theorem check_nul_eq_ok_iff_nul_free : e.checkNul = .ok () ↔ ∀ s ∈ e.texts, NulFree s := by
  have htext := holds_nul_eq_false_iff_nul_free
  have hoptional : ∀ s : Option String, s.any holdsNul = false ↔ ∀ t ∈ s.toList, NulFree t := by
    intro s
    cases s <;> simp [htext]
  have hlabels : ∀ labels : List String, labels.any holdsNul = false ↔
      ∀ s ∈ labels, NulFree s := by
    intro labels
    simp [← htext]
  have hmetadata : ∀ m : Option Json.Value, m.any (Json.Value.anyChar isNul) = false ↔
      ∀ s ∈ m.toList.flatMap Json.Value.texts, NulFree s := by
    intro m
    cases m with
    | none => simp
    | some v => simp [Json.Value.any_char_eq_false_iff, ← htext, holdsNul]
  have hnil : ∀ x ∈ ([] : List (Field × Bool)), x.2 = false := List.forall_mem_nil _
  rw [check_nul_eq_ok_iff, nulFields]
  cases hp : e.parentPolicy with
  | none =>
    simp only [List.forall_mem_append, List.forall_mem_cons, texts, Cluster.texts, Policy.texts,
      Details.texts, htext, hoptional, hmetadata, hp, Option.toList_none, List.flatMap_nil]
    have hnone : ∀ s ∈ ([] : List String), NulFree s := List.forall_mem_nil _
    tauto
  | some p =>
    simp only [List.forall_mem_append, List.forall_mem_cons, texts, Cluster.texts, Policy.texts,
      Details.texts, ParentPolicy.texts, htext, hoptional, hlabels, hmetadata, hp,
      Option.toList_some, List.flatMap_singleton]
    tauto

/-- Of all the checks only the search for NUL ends with this reason. -/
theorem check_nul_of_validate {field : Field} (h : e.validate = .error (.holdsNul field)) :
    e.checkNul = .error (.holdsNul field) := by
  simp only [validate, bind_eq_error_iff] at h
  rcases h with h | ⟨_,_,h | ⟨_,_,h | ⟨_,_,h | ⟨_,_,h | ⟨_,_,h⟩⟩⟩⟩⟩
  · unfold checkMissing at h
    split at h <;> cases h
  · exact h
  · unfold checkHash at h
    split at h
    · split at h <;> cases h
    · cases h
  · unfold checkSpec at h
    split at h
    · cases h
    · split at h
      · cases h
      · split at h <;> cases h
  · unfold checkTimestamp at h
    split at h
    · cases h
    · split at h
      · cases h
      · split at h <;> cases h
  · unfold checkMetadata at h
    split at h <;> cases h

variable {e} {now hash : String}

theorem nul_free_of_validate (h : e.validate = .ok ()) : ∀ s ∈ e.texts, NulFree s := by
  simp only [validate, bind_unit_eq_ok] at h
  exact e.check_nul_eq_ok_iff_nul_free.mp h.2.1

theorem forall_texts_completed {P : String → Prop} (h : ∀ s ∈ e.texts, P s) (hnow : P now)
    (hhash : P hash) : ∀ s ∈ (e.completed now hash).texts, P s := by
  simp only [texts, List.forall_mem_append] at h ⊢
  obtain ⟨⟨⟨hcluster,hparent⟩,hpolicy⟩,hdetails⟩ := h
  refine ⟨⟨⟨hcluster,hparent⟩,?_⟩,?_⟩
  · simp only [Policy.texts, completed, List.forall_mem_cons, List.forall_mem_append] at hpolicy ⊢
    exact ⟨hpolicy.1,hpolicy.2.1,hpolicy.2.2.1,List.forall_mem_singleton.mpr hhash⟩
  · simp only [Details.texts, completed, List.forall_mem_append] at hdetails ⊢
    obtain ⟨⟨⟨hmessage,htime⟩,hby⟩,hmetadata⟩ := hdetails
    refine ⟨⟨⟨hmessage,?_⟩,hby⟩,hmetadata⟩
    rw [Option.toList_some, List.forall_mem_singleton]
    cases ht : e.details.timestamp with
    | none => exact hnow
    | some text => exact htime text (by simp [ht])

end ComplianceEvent

end ComplianceIntake.Event
