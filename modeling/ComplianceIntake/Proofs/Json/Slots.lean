import Mathlib.Data.List.Nodup
import ComplianceIntake.Proofs.Json.Rereading

/-!
# Records that are written and read again

A record is written field by field, in the declared order, and fields without a
tree are left out. What is written are members with the names for keys, none of
them twice, and reading finds for each name just the tree that was written.
-/

set_option autoImplicit false

namespace ComplianceIntake.Json

open ComplianceIntake.Text

/-- The fields of a record to be written, each with its tree unless it is left out. -/
abbrev Slots := List (String × Option Tree)

namespace Slots

def names (slots : Slots) : List String := slots.map (·.1)

def members (slots : Slots) : List Member :=
  slots.flatMap fun s => s.2.toList.map (member s.1)

def record (slots : Slots) : Record := slots.flatMap fun s => s.2.toList.map fun t => (s.1, t)

def All (P : Tree → Prop) (slots : Slots) : Prop := ∀ s ∈ slots, ∀ t ∈ s.2, P t

variable {slots : Slots} {P : Tree → Prop}

theorem all_nil : Slots.All P [] := fun _ hs => absurd hs List.not_mem_nil

theorem all_cons {name : String} {tree : Option Tree} (ht : ∀ t ∈ tree, P t) (h : slots.All P) :
    Slots.All P ((name, tree) :: slots) :=
  List.forall_mem_cons.mpr ⟨ht,h⟩

theorem mem_members (h : slots.All P) :
    ∀ m ∈ slots.members, (∃ k, m.1 = .ofString k) ∧ P m.2 := by
  intro m hm
  obtain ⟨s,hs,hm⟩ := List.mem_flatMap.mp hm
  obtain ⟨t,ht,rfl⟩ := List.mem_map.mp hm
  exact ⟨⟨s.1,rfl⟩,h s hs t (Option.mem_toList.mp ht)⟩

theorem written (h : slots.All Tree.Written) : (Tree.object slots.members).Written :=
  .object (fun m hm => (mem_members h m hm).1) fun m hm => (mem_members h m hm).2

theorem is_plain {room : Nat} (h : slots.All (Tree.IsPlain room)) :
    (Tree.object slots.members).IsPlain (room + 1) :=
  is_plain_object (fun m hm => (mem_members h m hm).1) fun m hm => (mem_members h m hm).2

theorem keyed_members?_members (slots : Slots) :
    keyedMembers? slots.members = some slots.record := by
  induction slots with
  | nil => rfl
  | cons s slots ih =>
    obtain ⟨name,tree⟩ := s
    cases tree with
    | none => exact ih
    | some t =>
      show keyedMembers? (member name t :: members slots) = some ((name, t) :: record slots)
      rw [member, keyedMembers?, ih]
      simp

theorem mem_record {m : String × Tree} (h : m ∈ slots.record) : (m.1, some m.2) ∈ slots := by
  obtain ⟨⟨name,tree⟩,hs,hm⟩ := List.mem_flatMap.mp h
  obtain ⟨t,ht,rfl⟩ := List.mem_map.mp hm
  cases Option.mem_toList.mp ht
  exact hs

theorem nodup_record (h : slots.names.Nodup) : (slots.record.map (·.1)).Nodup := by
  induction slots with
  | nil => exact List.nodup_nil
  | cons s slots ih =>
    obtain ⟨name,tree⟩ := s
    obtain ⟨hname,hnames⟩ := List.nodup_cons.mp h
    cases tree with
    | none => exact ih hnames
    | some t =>
      apply List.nodup_cons.mpr ⟨?_,ih hnames⟩
      intro hmem
      obtain ⟨m,hm,rfl⟩ := List.mem_map.mp hmem
      exact hname (List.mem_map.mpr ⟨_,mem_record hm,rfl⟩)

theorem unrepeated_record (h : slots.names.Nodup) (names : List String) :
    Record.unrepeated names slots.record = true := by
  rw [Record.unrepeated, List.all_eq_true]
  intro name _
  have hcount : slots.record.countP (·.1 = name) = (slots.record.map (·.1)).count name := by
    rw [List.count, List.countP_map]
    apply List.countP_congr
    simp
  rw [decide_eq_true_eq, hcount]
  exact List.nodup_iff_count_le_one.mp (nodup_record h) name

theorem of_object?_members (h : slots.names.Nodup) (names : List String) :
    Record.ofObject? names slots.members = some slots.record := by
  rw [Record.ofObject?, keyed_members?_members, Option.filter_some, unrepeated_record h, if_pos rfl]

theorem get?_record_eq_none {name : String} (h : name ∉ slots.names) :
    slots.record.get? name = none := by
  apply List.lookup_eq_none_iff.mpr
  intro m hm
  have hne : name ≠ m.1 := by
    rintro rfl
    exact h (List.mem_map.mpr ⟨_,mem_record hm,rfl⟩)
  simpa using hne

/-- What is found under a name is the tree of its slot. -/
theorem get?_record (h : slots.names.Nodup) {s : String × Option Tree} (hs : s ∈ slots) :
    slots.record.get? s.1 = s.2 := by
  induction slots with
  | nil => exact absurd hs List.not_mem_nil
  | cons s' slots ih =>
    obtain ⟨hname,hnames⟩ := List.nodup_cons.mp h
    rcases List.mem_cons.mp hs with rfl | hrest
    · obtain ⟨name,tree⟩ := s
      cases tree with
      | none =>
        show (record slots).get? name = none
        exact get?_record_eq_none hname
      | some t => exact List.lookup_cons_self
    · have hne : s.1 ≠ s'.1 := by
        intro heq
        exact hname (List.mem_map.mpr ⟨s,hrest,heq⟩)
      obtain ⟨name,tree⟩ := s'
      cases tree with
      | none => exact ih hnames hrest
      | some t =>
        show List.lookup s.1 ((name, t) :: record slots) = s.2
        rw [List.lookup_cons, beq_eq_false_iff_ne.mpr hne]
        exact ih hnames hrest

/-- Reading finds the record, and under each name the tree of its slot. -/
theorem exists_record (h : slots.names.Nodup) (names : List String) :
    ∃ r, Record.ofTree? names (.object slots.members) = some r ∧
      ∀ s ∈ slots, r.get? s.1 = s.2 :=
  ⟨_,of_object?_members h names,fun _ hs => get?_record h hs⟩

end Slots

namespace Record

variable {α : Type} {r : Record} {name : String}

theorem field_of_get? {default a : α} {decode : Tree → Option α} {t : Tree}
    (h : r.get? name = some t) (ha : decode t = some a) :
    r.field name default decode = some a := by
  rw [field, h]
  exact ha

theorem field_of_get?_ite {default a : α} {decode : Tree → Option α} {c : Prop} [Decidable c]
    {t : Tree} (h : r.get? name = if c then none else some t) (hc : c → default = a)
    (ha : ¬ c → decode t = some a) : r.field name default decode = some a := by
  rw [field, h]
  by_cases hcond : c
  · rw [if_pos hcond, hc hcond]
  · rw [if_neg hcond]
    exact ha hcond

theorem optional_of_get? {v : Option α} {decode : Tree → Option α} {tree : α → Tree}
    (h : r.get? name = v.map tree) (hnull : ∀ a ∈ v, tree a ≠ .null)
    (ha : ∀ a ∈ v, decode (tree a) = some a) : r.optional name decode = some v := by
  rw [optional, h]
  cases v with
  | none => rfl
  | some a =>
    rw [Option.map_some]
    split
    · contradiction
    · next heq => exact absurd (Option.some.inj heq) (hnull a rfl)
    · next heq =>
      cases heq
      rw [ha a rfl, Option.map_some]

theorem required_of_get? {a : α} {decode : Tree → Option α} {t : Tree}
    (h : r.get? name = some t) (ha : decode t = some a) : r.required name decode = some a := by
  rw [required, h]
  exact ha

end Record

@[simp] theorem Tree.string?_of_string (s : String) : (Tree.ofString s).string? = some s :=
  Literal.string?_of_string s

theorem Tree.strings?_of_strings (ss : List String) : (Tree.ofStrings ss).strings? = some ss := by
  show (ss.map Tree.ofString).mapM Tree.string? = some ss
  induction ss with
  | nil => rfl
  | cons s ss ih =>
    rw [List.map_cons, List.mapM_cons, Tree.string?_of_string, ih]
    rfl

theorem Tree.integer?_of_int {i : Int} (h : Number.InRange i) :
    (Tree.ofInt i).integer? = some i := by
  simp [Tree.ofInt, Tree.integer?, Number.of_numeral?_of_int h]

theorem Tree.written_of_strings (ss : List String) : (Tree.ofStrings ss).Written := by
  apply Tree.Written.list
  exact List.forall_mem_map.mpr fun s _ => .string s

theorem is_plain_of_strings (room : Nat) (ss : List String) :
    (Tree.ofStrings ss).IsPlain (room + 1) := by
  apply is_plain_list
  exact List.forall_mem_map.mpr fun s _ => is_plain_string s

theorem members_optional {α : Type} (name : String) (v : Option α) (tree : α → Tree) :
    optionalMember name v tree = Slots.members [(name, v.map tree)] := by
  cases v <;> rfl

theorem members_strings (name : String) (ss : List String) :
    stringsMember name ss =
      Slots.members [(name, if ss.isEmpty then none else some (.ofStrings ss))] := by
  rw [stringsMember]
  split <;> rfl

end ComplianceIntake.Json
