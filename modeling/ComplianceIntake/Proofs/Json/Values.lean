import ComplianceIntake.Json.Value
import ComplianceIntake.Proofs.Json.Integers
import ComplianceIntake.Proofs.Text.Ascending

/-!
# Parts of values

What is said here of a value is said of all the values inside of it: which
integers it has, how its objects are sorted and with which key they begin. A value
fits where its containers have room and none of its objects begins with the key
that marks an embedded text.
-/

set_option autoImplicit false

namespace ComplianceIntake.Json

open ComplianceIntake.Text

namespace Value

@[elab_as_elim]
theorem induct {motive : Value → Prop} (null : motive .null) (bool : ∀ b, motive (.bool b))
    (number : ∀ n, motive (.number n)) (string : ∀ s, motive (.string s))
    (list : ∀ items : List Value, (∀ v ∈ items, motive v) → motive (.list items))
    (object : ∀ members : List (String × Value), (∀ m ∈ members, motive m.2) →
      motive (.object members)) (v : Value) : motive v :=
  match v with
  | .null => null
  | .bool b => bool b
  | .number n => number n
  | .string s => string s
  | .list items => list items fun v _ => induct null bool number string list object v
  | .object members => object members fun m _ => induct null bool number string list object m.2
  termination_by sizeOf v
  decreasing_by
    · next h =>
      have hlt := List.sizeOf_lt_of_mem h
      simp only [Value.list.sizeOf_spec]
      omega
    · next h =>
      have hlt := List.sizeOf_lt_of_mem h
      cases m
      simp only [Value.object.sizeOf_spec, Prod.mk.sizeOf_spec] at *
      omega

mutual

def parts : Value → List Value
  | .list items => .list items :: itemParts items
  | .object members => .object members :: memberParts members
  | v => [v]

def itemParts : List Value → List Value
  | [] => []
  | v :: vs => v.parts ++ itemParts vs

def memberParts : List (String × Value) → List Value
  | [] => []
  | (_, v) :: ms => v.parts ++ memberParts ms

end

mutual

def depth : Value → Nat
  | .list items => itemsDepth items + 1
  | .object members => membersDepth members + 1
  | _ => 0

def itemsDepth : List Value → Nat
  | [] => 0
  | v :: vs => max v.depth (itemsDepth vs)

def membersDepth : List (String × Value) → Nat
  | [] => 0
  | (_, v) :: ms => max v.depth (membersDepth ms)

end

def startsMarked : Value → Bool
  | .object ((k, _) :: _) => k = embeddedKey
  | _ => false

def marked (v : Value) : Bool := v.parts.any startsMarked

def isDouble : Value → Bool
  | .number (.double _) => true
  | _ => false

def integral (v : Value) : Bool := v.parts.all fun p => !p.isDouble

/-- What reading establishes of a value, apart from the values inside of it. -/
def NormalPart : Value → Prop
  | .number (.integer i) => Number.InRange i
  | .object members =>
    (members.map (·.1)).Pairwise (below · ·) ∧ ∀ v, members ≠ [(embeddedKey, v)]
  | _ => True

def Normal (v : Value) : Prop := ∀ p ∈ v.parts, p.NormalPart

/-- The value is read from its text, where `room` containers may be opened inside each other. -/
structure Fits (room : Nat) (v : Value) : Prop where
  depth : v.depth ≤ room
  unmarked : v.marked = false

instance (room : Nat) (v : Value) : Decidable (v.Fits room) :=
  decidable_of_iff (v.depth ≤ room ∧ v.marked = false)
    ⟨fun h => ⟨h.1,h.2⟩,fun h => ⟨h.depth,h.unmarked⟩⟩

section Parts

variable {items : List Value} {members : List (String × Value)} {P : Value → Prop}

theorem item_parts_eq (items : List Value) : itemParts items = items.flatMap parts := by
  induction items with
  | nil => rfl
  | cons v vs ih => rw [itemParts, ih, List.flatMap_cons]

theorem member_parts_eq (members : List (String × Value)) :
    memberParts members = members.flatMap fun m => m.2.parts := by
  induction members with
  | nil => rfl
  | cons m ms ih => rw [memberParts, ih, List.flatMap_cons]

theorem forall_parts_list : (∀ p ∈ (Value.list items).parts, P p) ↔
    P (.list items) ∧ ∀ v ∈ items, ∀ p ∈ v.parts, P p := by
  rw [parts, item_parts_eq, List.forall_mem_cons, List.forall_mem_flatMap]

theorem forall_parts_object : (∀ p ∈ (Value.object members).parts, P p) ↔
    P (.object members) ∧ ∀ m ∈ members, ∀ p ∈ m.2.parts, P p := by
  rw [parts, member_parts_eq, List.forall_mem_cons, List.forall_mem_flatMap]

theorem normal_list : (Value.list items).Normal ↔ ∀ v ∈ items, v.Normal :=
  forall_parts_list.trans (iff_of_eq (true_and _))

theorem normal_object : (Value.object members).Normal ↔
    (Value.object members).NormalPart ∧ ∀ m ∈ members, m.2.Normal :=
  forall_parts_object

theorem marked_eq_false_iff (v : Value) :
    v.marked = false ↔ ∀ p ∈ v.parts, p.startsMarked = false := by
  simp [marked]

theorem integral_iff (v : Value) : v.integral = true ↔ ∀ p ∈ v.parts, p.isDouble = false := by
  simp [integral]

theorem items_depth_le_iff (items : List Value) (room : Nat) :
    itemsDepth items ≤ room ↔ ∀ v ∈ items, v.depth ≤ room := by
  induction items with
  | nil => simp [itemsDepth]
  | cons v vs ih => rw [itemsDepth, Nat.max_le, ih, List.forall_mem_cons]

theorem members_depth_le_iff (members : List (String × Value)) (room : Nat) :
    membersDepth members ≤ room ↔ ∀ m ∈ members, m.2.depth ≤ room := by
  induction members with
  | nil => simp [membersDepth]
  | cons m ms ih => rw [membersDepth, Nat.max_le, ih, List.forall_mem_cons]

end Parts

section Fits

variable {items : List Value} {members : List (String × Value)} {room : Nat}

theorem fits_leaf {v : Value} (hparts : v.parts = [v]) (hdepth : v.depth = 0)
    (hv : v.startsMarked = false) : v.Fits room := by
  refine ⟨by omega,?_⟩
  rw [marked, hparts]
  simp [hv]

theorem fits_list : (Value.list items).Fits (room + 1) ↔ ∀ v ∈ items, v.Fits room := by
  constructor
  · rintro ⟨hdepth,hmarked⟩ v hv
    have hitems := (items_depth_le_iff items room).mp (Nat.le_of_succ_le_succ hdepth)
    have hparts := (forall_parts_list.mp ((marked_eq_false_iff _).mp hmarked)).2
    exact ⟨hitems v hv,(marked_eq_false_iff v).mpr (hparts v hv)⟩
  · intro h
    have hitems := (items_depth_le_iff items room).mpr fun v hv => (h v hv).depth
    have hparts := fun v hv => (marked_eq_false_iff v).mp (h v hv).unmarked
    exact ⟨Nat.succ_le_succ hitems,(marked_eq_false_iff _).mpr (forall_parts_list.mpr ⟨rfl,hparts⟩)⟩

theorem fits_object : (Value.object members).Fits (room + 1) ↔
    (Value.object members).startsMarked = false ∧ ∀ m ∈ members, m.2.Fits room := by
  constructor
  · rintro ⟨hdepth,hmarked⟩
    have hmembers := (members_depth_le_iff members room).mp (Nat.le_of_succ_le_succ hdepth)
    obtain ⟨hfirst,hparts⟩ := forall_parts_object.mp ((marked_eq_false_iff _).mp hmarked)
    exact ⟨hfirst,fun m hm => ⟨hmembers m hm,(marked_eq_false_iff m.2).mpr (hparts m hm)⟩⟩
  · rintro ⟨hfirst,h⟩
    have hmembers := (members_depth_le_iff members room).mpr fun m hm => (h m hm).depth
    have hparts := fun m hm => (marked_eq_false_iff _).mp (h m hm).unmarked
    exact ⟨Nat.succ_le_succ hmembers,
      (marked_eq_false_iff _).mpr (forall_parts_object.mpr ⟨hfirst,hparts⟩)⟩

theorem not_fits_list_zero : ¬ (Value.list items).Fits 0 :=
  fun h => Nat.not_succ_le_zero _ h.depth

theorem not_fits_object_zero : ¬ (Value.object members).Fits 0 :=
  fun h => Nat.not_succ_le_zero _ h.depth

end Fits

section Sorting

variable {members : List (String × Value)}

theorem map_keep_last (members : List (String × Value)) :
    (keepLast members).map (·.1) = dropRepeats (members.map (·.1)) := by
  induction members with
  | nil => rfl
  | cons m rest ih =>
    cases rest with
    | nil => rfl
    | cons m' rest =>
      by_cases h : m.1 = m'.1
      · rw [keepLast, if_pos h, ih]
        simp [dropRepeats, h]
      · rw [keepLast, if_neg h, List.map_cons, ih]
        simp [dropRepeats, h]

theorem map_sort_members (members : List (String × Value)) :
    (sortMembers members).map (·.1) = ascending (members.map (·.1)) := by
  have hsort : (members.mergeSort fun m m' => atMost m.1 m'.1).map (·.1) =
      (members.map (·.1)).mergeSort atMost := List.map_mergeSort fun _ _ _ _ => rfl
  rw [sortMembers, map_keep_last, hsort, ascending]

theorem mem_keep_last {m : String × Value} (h : m ∈ keepLast members) : m ∈ members := by
  induction members with
  | nil => exact h
  | cons a rest ih =>
    cases rest with
    | nil => exact h
    | cons b rest =>
      rw [keepLast] at h
      split at h
      · exact List.mem_cons_of_mem a (ih h)
      · rcases List.mem_cons.mp h with rfl | h
        · exact List.mem_cons_self
        · exact List.mem_cons_of_mem a (ih h)

theorem mem_of_mem_sort_members {m : String × Value} (h : m ∈ sortMembers members) :
    m ∈ members :=
  List.mem_mergeSort.mp (mem_keep_last h)

theorem keep_last_of_pairwise (h : (members.map (·.1)).Pairwise (below · ·)) :
    keepLast members = members := by
  induction members with
  | nil => rfl
  | cons m rest ih =>
    obtain ⟨hm,hrest⟩ := List.pairwise_cons.mp h
    cases rest with
    | nil => rfl
    | cons m' rest =>
      have hne : m.1 ≠ m'.1 := by
        intro heq
        exact below_irrefl m'.1 (heq ▸ hm m'.1 List.mem_cons_self)
      rw [keepLast, if_neg hne, ih hrest]

theorem sort_members_of_pairwise (h : (members.map (·.1)).Pairwise (below · ·)) :
    sortMembers members = members := by
  have hsorted : members.Pairwise fun m m' => atMost m.1 m'.1 := by
    apply (List.pairwise_map.mp h).imp
    intro m m' hlt
    simp only [below, atMost, decide_eq_true_eq] at hlt ⊢
    exact List.le_of_lt hlt
  rw [sortMembers, List.mergeSort_of_pairwise hsorted, keep_last_of_pairwise h]

theorem sort_members_pair {m m' : String × Value} (h : below m'.1 m.1) :
    sortMembers [m, m'] = [m', m] := by
  have hnot : atMost m.1 m'.1 = false := by
    simp only [atMost, below, decide_eq_true_eq, decide_eq_false_iff_not] at h ⊢
    exact fun hle => hle h
  have hne : m'.1 ≠ m.1 := by
    intro heq
    exact below_irrefl m.1 (heq ▸ h)
  simp [sortMembers, List.mergeSort, List.MergeSort.Internal.splitInTwo, hnot, keepLast, hne]

end Sorting

end Value

end ComplianceIntake.Json
