import ComplianceIntake.Proofs.Json.Rereading

/-!
# Texts without marks

Where no key marks a value that is embedded as text, a value is read in the way
that it is written. It keeps within the room there is, none of its objects begins
with the mark, and it is null only where null is written.
-/

set_option autoImplicit false

namespace ComplianceIntake.Json

open ComplianceIntake.Text

inductive Tree.Unmarked : Tree → Prop
  | null : Unmarked .null
  | bool (b : Bool) : Unmarked (.bool b)
  | number (n : ComplianceIntake.Number.Numeral) : Unmarked (.number n)
  | string (l : Literal) : Unmarked (.string l)
  | list {items : List Tree} (h : ∀ t ∈ items, Unmarked t) : Unmarked (.list items)
  | object {members : List (Literal × Tree)} (hk : ∀ m ∈ members, m.1.string? ≠ some embeddedKey)
      (h : ∀ m ∈ members, Unmarked m.2) : Unmarked (.object members)

section Unmarked

variable {room : Nat} {t : Tree} {v : Value}

theorem embedded_text?_of_unmarked {members : List (Literal × Tree)}
    (hk : ∀ m ∈ members, m.1.string? ≠ some embeddedKey) : embeddedText? members = none := by
  cases members with
  | nil => rfl
  | cons m ms =>
    rw [embeddedText?.eq_def]
    exact if_neg (hk m List.mem_cons_self)

theorem starts_marked_of_members_of? {embedding : Embedding} {members : List (Literal × Tree)}
    (hk : ∀ m ∈ members, m.1.string? ≠ some embeddedKey) {vs : List (String × Value)}
    (h : membersOf? embedding room members = some vs) :
    (Value.object (sortMembers vs)).startsMarked = false := by
  have hkeys : ∀ w ∈ sortMembers vs, w.1 ≠ embeddedKey := by
    intro w hw heq
    have hmem : some w.1 ∈ members.map (·.1.string?) := by
      rw [map_of_members_of? h]
      exact List.mem_map.mpr ⟨w,Value.mem_of_mem_sort_members hw,rfl⟩
    obtain ⟨m,hm,hkey⟩ := List.mem_map.mp hmem
    exact hk m hm (hkey.trans (congrArg some heq))
  cases hsorted : sortMembers vs with
  | nil => rfl
  | cons w ws =>
    rw [hsorted] at hkeys
    exact decide_eq_false (hkeys w List.mem_cons_self)

/-- What is read where no key is special fits, and is null only where null is written. -/
theorem fits_of_unmarked (ht : t.Unmarked) (h : Value.ofTree? room t = some v) :
    v.Fits room ∧ (v = .null → t = .null) := by
  rw [Value.ofTree?] at h
  induction ht generalizing room v with
  | null =>
    cases h
    exact ⟨Value.fits_leaf rfl rfl rfl,fun _ => rfl⟩
  | bool b =>
    cases h
    exact ⟨Value.fits_leaf rfl rfl rfl,nofun⟩
  | number n =>
    obtain ⟨m,_,rfl⟩ := Option.map_eq_some_iff.mp h
    exact ⟨Value.fits_leaf rfl rfl rfl,nofun⟩
  | string l =>
    obtain ⟨s,_,rfl⟩ := Option.map_eq_some_iff.mp h
    exact ⟨Value.fits_leaf rfl rfl rfl,nofun⟩
  | list _ ih =>
    cases room with
    | zero => contradiction
    | succ room =>
      obtain ⟨vs,hvs,rfl⟩ := Option.map_eq_some_iff.mp h
      refine ⟨Value.fits_list.mpr ?_,nofun⟩
      intro v hv
      obtain ⟨t,ht,hread⟩ := mem_of_values_of? hvs v hv
      exact (ih t ht hread).1
  | object hk _ ih =>
    cases room with
    | zero => contradiction
    | succ room =>
      rw [Value.of_tree_with?_unmarked (embedded_text?_of_unmarked hk)] at h
      obtain ⟨vs,hvs,rfl⟩ := Option.map_eq_some_iff.mp h
      refine ⟨Value.fits_object.mpr ⟨starts_marked_of_members_of? hk hvs,?_⟩,nofun⟩
      intro w hw
      obtain ⟨m,hm,hread⟩ := mem_of_members_of? hvs w (Value.mem_of_mem_sort_members hw)
      exact (ih m hm hread).1

theorem mem_of_keyed_members? {members : List (Literal × Tree)} {r : Record}
    (h : keyedMembers? members = some r) : ∀ m ∈ r, ∃ m' ∈ members, m'.2 = m.2 := by
  induction members generalizing r with
  | nil =>
    cases h
    exact fun m hm => absurd hm List.not_mem_nil
  | cons m ms ih =>
    simp only [keyedMembers?, Option.bind_eq_bind, Option.bind_eq_some_iff, Option.pure_def,
      Option.some.injEq] at h
    obtain ⟨k,_,rest,hrest,rfl⟩ := h
    intro w hw
    rcases List.mem_cons.mp hw with rfl | hw
    · exact ⟨m,List.mem_cons_self,rfl⟩
    · obtain ⟨u,hu,heq⟩ := ih hrest w hw
      exact ⟨u,List.mem_cons_of_mem m hu,heq⟩

/-- What is found under a name of a record is a tree inside of the one that was read. -/
theorem unmarked_of_get? {names : List String} {r : Record} {name : String} {u : Tree}
    (ht : t.Unmarked) (hr : Record.ofTree? names t = some r) (hget : r.get? name = some u) :
    u.Unmarked := by
  obtain ⟨l₁,l₂,hmem,_⟩ := List.lookup_eq_some_iff.mp hget
  have hu : (name, u) ∈ r := by
    rw [hmem]
    exact List.mem_append_right l₁ List.mem_cons_self
  cases ht with
  | list h =>
    rw [Record.ofTree?] at hr
    split at hr
    · cases hr
      exact h u (List.of_mem_zip hu).2
    · contradiction
  | object _ h =>
    obtain ⟨hkeyed,_⟩ := Option.filter_eq_some_iff.mp hr
    obtain ⟨m,hm,heq⟩ := mem_of_keyed_members? hkeyed _ hu
    have hu : m.2 = u := heq
    exact hu ▸ h m hm
  | _ => contradiction

end Unmarked

end ComplianceIntake.Json
