import ComplianceIntake.Proofs.Json.Values
import ComplianceIntake.Proofs.Json.Written

/-!
# Values that are written and read again

A value that was read has its members in the order of their keys and its
integers within sixty-four bits. Written, it is read as itself if it fits, and it
is refused otherwise. No text makes an object that has the mark of an embedded
text for its only key; but one that has other keys as well, and was written with
one of them in front, begins with the mark when it is sorted.
-/

set_option autoImplicit false

namespace ComplianceIntake.Json

open ComplianceIntake.Text

namespace Tree

@[elab_as_elim]
theorem induct {motive : Tree → Prop} (null : motive .null) (bool : ∀ b, motive (.bool b))
    (number : ∀ n, motive (.number n)) (string : ∀ l, motive (.string l))
    (list : ∀ items : List Tree, (∀ t ∈ items, motive t) → motive (.list items))
    (object : ∀ members : List (Literal × Tree), (∀ m ∈ members, motive m.2) →
      motive (.object members)) (t : Tree) : motive t :=
  match t with
  | .null => null
  | .bool b => bool b
  | .number n => number n
  | .string l => string l
  | .list items => list items fun t _ => induct null bool number string list object t
  | .object members => object members fun m _ => induct null bool number string list object m.2
  termination_by sizeOf t
  decreasing_by
    · next h =>
      have hlt := List.sizeOf_lt_of_mem h
      simp only [Tree.list.sizeOf_spec]
      omega
    · next h =>
      have hlt := List.sizeOf_lt_of_mem h
      cases m
      simp only [Tree.object.sizeOf_spec, Prod.mk.sizeOf_spec] at *
      omega

end Tree

section Reading

variable {embedding : Embedding} {room : Nat}

theorem mem_of_values_of? {ts : List Tree} {vs : List Value}
    (h : valuesOf? embedding room ts = some vs) :
    ∀ v ∈ vs, ∃ t ∈ ts, Value.ofTreeWith? embedding room t = some v := by
  induction ts generalizing vs with
  | nil =>
    cases h
    exact fun v hv => absurd hv List.not_mem_nil
  | cons t ts ih =>
    simp only [valuesOf?, Option.bind_eq_bind, Option.bind_eq_some_iff, Option.pure_def,
      Option.some.injEq] at h
    obtain ⟨v,hv,vs,hvs,rfl⟩ := h
    intro w hw
    rcases List.mem_cons.mp hw with rfl | hw
    · exact ⟨t,List.mem_cons_self,hv⟩
    · obtain ⟨u,hu,hread⟩ := ih hvs w hw
      exact ⟨u,List.mem_cons_of_mem t hu,hread⟩

theorem map_of_members_of? {ms : List (Literal × Tree)} {vs : List (String × Value)}
    (h : membersOf? embedding room ms = some vs) :
    ms.map (·.1.string?) = vs.map fun v => some v.1 := by
  induction ms generalizing vs with
  | nil =>
    cases h
    rfl
  | cons m ms ih =>
    simp only [membersOf?, Option.bind_eq_bind, Option.bind_eq_some_iff, Option.pure_def,
      Option.some.injEq] at h
    obtain ⟨k,hk,v,_,vs,hvs,rfl⟩ := h
    rw [List.map_cons, List.map_cons, ih hvs, hk]

theorem mem_of_members_of? {ms : List (Literal × Tree)} {vs : List (String × Value)}
    (h : membersOf? embedding room ms = some vs) :
    ∀ v ∈ vs, ∃ m ∈ ms, Value.ofTreeWith? embedding room m.2 = some v.2 := by
  induction ms generalizing vs with
  | nil =>
    cases h
    exact fun v hv => absurd hv List.not_mem_nil
  | cons m ms ih =>
    simp only [membersOf?, Option.bind_eq_bind, Option.bind_eq_some_iff, Option.pure_def,
      Option.some.injEq] at h
    obtain ⟨k,_,v,hv,vs,hvs,rfl⟩ := h
    intro w hw
    rcases List.mem_cons.mp hw with rfl | hw
    · exact ⟨m,List.mem_cons_self,hv⟩
    · obtain ⟨u,hu,hread⟩ := ih hvs w hw
      exact ⟨u,List.mem_cons_of_mem m hu,hread⟩

theorem ne_marked_of_members_of? {ms : List (Literal × Tree)} {vs : List (String × Value)}
    (h : membersOf? embedding room ms = some vs) (hm : embeddedText? ms = none) (v : Value) :
    sortMembers vs ≠ [(embeddedKey, v)] := by
  intro hlone
  have hkeys := map_of_members_of? h
  have hascending : ascending (vs.map (·.1)) = [embeddedKey] := by
    rw [← Value.map_sort_members, hlone]
    rfl
  cases ms with
  | nil =>
    cases vs with
    | nil => simp [ascending, dropRepeats] at hascending
    | cons w vs => cases hkeys
  | cons m ms =>
    cases vs with
    | nil => cases hkeys
    | cons w vs =>
      have hfirst : w.1 ∈ ascending ((w :: vs).map (·.1)) :=
        (mem_ascending _ _).mpr List.mem_cons_self
      rw [hascending, List.mem_singleton] at hfirst
      have hkey : m.1.string? = some embeddedKey := by
        rw [← hfirst]
        exact (List.cons.inj hkeys).1
      rw [embeddedText?.eq_def] at hm
      simp only [hkey, if_true] at hm
      split at hm <;> contradiction

theorem Value.of_tree_with?_marked {value? : String → Option Value} {room : Nat}
    {members : List (Literal × Tree)} {text : Option String}
    (h : embeddedText? members = some text) :
    Value.ofTreeWith? (some value?) (room + 1) (.object members) = text.bind value? := by
  rw [Value.ofTreeWith?.eq_def]
  simp only [h]

theorem Value.of_tree_with?_unmarked {value? : String → Option Value} {room : Nat}
    {members : List (Literal × Tree)} (h : embeddedText? members = none) :
    Value.ofTreeWith? (some value?) (room + 1) (.object members) =
      (membersOf? (some value?) room members).map fun ms => .object (sortMembers ms) := by
  rw [Value.ofTreeWith?.eq_def]
  simp only [h]

/-- A value that is read is normal, if those that are embedded are. -/
theorem normal_of_of_tree_with? {value? : String → Option Value}
    (hvalue : ∀ text v, value? text = some v → v.Normal) (t : Tree) {v : Value}
    (h : Value.ofTreeWith? (some value?) room t = some v) : v.Normal := by
  have hleaf : ∀ {w : Value}, w.parts = [w] → w.NormalPart → w.Normal := by
    intro w hparts hw
    rw [Value.Normal, hparts]
    exact List.forall_mem_singleton.mpr hw
  induction t using Tree.induct generalizing room v with
  | null =>
    cases h
    exact hleaf rfl trivial
  | bool b =>
    cases h
    exact hleaf rfl trivial
  | number n =>
    obtain ⟨m,hm,rfl⟩ := Option.map_eq_some_iff.mp h
    cases m with
    | integer i => exact hleaf rfl (Number.in_range_of_of_numeral? hm)
    | double bits => exact hleaf rfl trivial
  | string l =>
    obtain ⟨s,_,rfl⟩ := Option.map_eq_some_iff.mp h
    exact hleaf rfl trivial
  | list items ih =>
    cases room with
    | zero => contradiction
    | succ room =>
      obtain ⟨vs,hvs,rfl⟩ := Option.map_eq_some_iff.mp h
      apply Value.normal_list.mpr
      intro v hv
      obtain ⟨t,ht,hread⟩ := mem_of_values_of? hvs v hv
      exact ih t ht hread
  | object members ih =>
    cases room with
    | zero => contradiction
    | succ room =>
      cases hmarked : embeddedText? members with
      | some text =>
        rw [Value.of_tree_with?_marked hmarked] at h
        obtain ⟨text,_,hv⟩ := Option.bind_eq_some_iff.mp h
        exact hvalue text v hv
      | none =>
        rw [Value.of_tree_with?_unmarked hmarked] at h
        obtain ⟨vs,hvs,rfl⟩ := Option.map_eq_some_iff.mp h
        have hkeys : ((sortMembers vs).map (·.1)).Pairwise (below · ·) := by
          rw [Value.map_sort_members]
          exact pairwise_ascending _
        apply Value.normal_object.mpr ⟨⟨hkeys,ne_marked_of_members_of? hvs hmarked⟩,?_⟩
        intro v hv
        obtain ⟨m,hm,hread⟩ := mem_of_members_of? hvs v (Value.mem_of_mem_sort_members hv)
        exact ih m hm hread

theorem normal_of_embedded_value? (layers : Nat) (text : String) (v : Value)
    (h : embeddedValue? layers text = some v) : v.Normal := by
  induction layers generalizing text v with
  | zero => contradiction
  | succ layers ih =>
    rw [embeddedValue?] at h
    split at h
    · next t _ => exact normal_of_of_tree_with? ih t h
    · contradiction

theorem Value.normal_of_of_tree? {t : Tree} {v : Value} (h : Value.ofTree? room t = some v) :
    v.Normal :=
  normal_of_of_tree_with? (fun text => normal_of_embedded_value? (text.length + 1) text) t h

end Reading

section Writing

variable {embedding : Embedding} {room : Nat}

theorem value_trees_eq (vs : List Value) : valueTrees vs = vs.map Value.tree := by
  induction vs with
  | nil => rfl
  | cons v vs ih => rw [valueTrees, ih, List.map_cons]

theorem member_trees_eq (ms : List (String × Value)) :
    memberTrees ms = ms.map fun m => (Literal.ofString m.1, m.2.tree) := by
  induction ms with
  | nil => rfl
  | cons m ms ih => rw [memberTrees, ih, List.map_cons]

theorem Value.written_tree (v : Value) (h : v.integral = true) : v.tree.Written := by
  rw [Value.integral_iff] at h
  induction v using Value.induct with
  | null => exact .null
  | bool b => exact .bool b
  | number n =>
    cases n with
    | integer i => exact .integer i
    | double bits => exact absurd (h _ List.mem_cons_self) (by simp [Value.isDouble])
  | string s => exact .string s
  | list items ih =>
    have hitems := (Value.forall_parts_list.mp h).2
    rw [Value.tree, value_trees_eq]
    exact .list (List.forall_mem_map.mpr fun v hv => ih v hv (hitems v hv))
  | object members ih =>
    have hmembers := (Value.forall_parts_object.mp h).2
    rw [Value.tree, member_trees_eq]
    apply Tree.Written.object
    · exact List.forall_mem_map.mpr fun m _ => ⟨m.1,rfl⟩
    · exact List.forall_mem_map.mpr fun m hm => ih m hm (hmembers m hm)

theorem values_of?_value_trees {vs : List Value} {Q : Value → Prop} [DecidablePred Q]
    (h : ∀ v ∈ vs, Value.ofTreeWith? embedding room v.tree = if Q v then some v else none) :
    valuesOf? embedding room (valueTrees vs) = if ∀ v ∈ vs, Q v then some vs else none := by
  induction vs with
  | nil => simp [valueTrees, valuesOf?]
  | cons v vs ih =>
    obtain ⟨hv,hvs⟩ := List.forall_mem_cons.mp h
    rw [valueTrees, valuesOf?, hv, ih hvs]
    by_cases hall : ∀ w ∈ v :: vs, Q w
    · obtain ⟨hq,hqs⟩ := List.forall_mem_cons.mp hall
      rw [if_pos hq, if_pos hqs, if_pos hall]
      rfl
    · rw [if_neg hall]
      by_cases hq : Q v
      · have hqs : ¬ ∀ w ∈ vs, Q w := fun hqs => hall (List.forall_mem_cons.mpr ⟨hq,hqs⟩)
        rw [if_pos hq, if_neg hqs]
        rfl
      · rw [if_neg hq]
        rfl

theorem members_of?_member_trees {ms : List (String × Value)} {Q : Value → Prop} [DecidablePred Q]
    (h : ∀ m ∈ ms, Value.ofTreeWith? embedding room m.2.tree = if Q m.2 then some m.2 else none) :
    membersOf? embedding room (memberTrees ms) = if ∀ m ∈ ms, Q m.2 then some ms else none := by
  induction ms with
  | nil => simp [memberTrees, membersOf?]
  | cons m ms ih =>
    obtain ⟨hm,hms⟩ := List.forall_mem_cons.mp h
    rw [memberTrees, membersOf?, hm, ih hms, Literal.string?_of_string]
    by_cases hall : ∀ w ∈ m :: ms, Q w.2
    · obtain ⟨hq,hqs⟩ := List.forall_mem_cons.mp hall
      rw [if_pos hq, if_pos hqs, if_pos hall]
      rfl
    · rw [if_neg hall]
      by_cases hq : Q m.2
      · have hqs : ¬ ∀ w ∈ ms, Q w.2 := fun hqs => hall (List.forall_mem_cons.mpr ⟨hq,hqs⟩)
        rw [if_pos hq, if_neg hqs]
        rfl
      · rw [if_neg hq]
        rfl

/-- Written, the members of a normal object do not stand for an embedded text; where their first key
says that they do, they are refused. -/
theorem embedded_text?_member_trees {members : List (String × Value)}
    (h : ∀ v, members ≠ [(embeddedKey, v)]) :
    embeddedText? (memberTrees members) =
      if (Value.object members).startsMarked then some none else none := by
  cases members with
  | nil => rfl
  | cons m ms =>
    obtain ⟨k,v⟩ := m
    rw [memberTrees, embeddedText?.eq_def]
    simp only [Literal.string?_of_string, Option.some.injEq, Value.startsMarked, decide_eq_true_eq]
    by_cases hk : k = embeddedKey
    · subst hk
      cases ms with
      | nil => exact absurd rfl (h v)
      | cons m ms => simp [memberTrees]
    · rw [if_neg hk, if_neg hk]

/-- A normal value with integers alone is read from its text as itself, or it is refused. -/
theorem Value.of_tree_with?_tree (value? : String → Option Value) (v : Value)
    (hn : v.Normal) (hi : v.integral = true) (room : Nat) :
    Value.ofTreeWith? (some value?) room v.tree = if v.Fits room then some v else none := by
  rw [Value.integral_iff] at hi
  induction v using Value.induct generalizing room with
  | null => rw [if_pos (Value.fits_leaf rfl rfl rfl)]; rfl
  | bool b => rw [if_pos (Value.fits_leaf rfl rfl rfl)]; rfl
  | number n =>
    cases n with
    | integer i =>
      have hi : Number.InRange i := hn _ List.mem_cons_self
      rw [if_pos (Value.fits_leaf rfl rfl rfl), Value.tree, Value.ofTreeWith?]
      simp [Number.numeral, Number.of_numeral?_of_int hi]
    | double bits => exact absurd (hi _ List.mem_cons_self) (by simp [Value.isDouble])
  | string s =>
    rw [if_pos (Value.fits_leaf rfl rfl rfl), Value.tree, Value.ofTreeWith?]
    simp
  | list items ih =>
    cases room with
    | zero => rw [if_neg Value.not_fits_list_zero]; rfl
    | succ room =>
      have hitems := Value.normal_list.mp hn
      have hintegers := (Value.forall_parts_list.mp hi).2
      have hread := values_of?_value_trees (Q := Value.Fits room) fun v hv =>
        ih v hv (hitems v hv) (hintegers v hv) room
      rw [Value.tree]
      show (valuesOf? (some value?) room (valueTrees items)).map Value.list = _
      rw [hread]
      by_cases hall : ∀ v ∈ items, v.Fits room
      · rw [if_pos hall, if_pos (Value.fits_list.mpr hall), Option.map_some]
      · rw [if_neg hall, if_neg (hall ∘ Value.fits_list.mp), Option.map_none]
  | object members ih =>
    cases room with
    | zero => rw [if_neg Value.not_fits_object_zero]; rfl
    | succ room =>
      obtain ⟨⟨hsorted,hlone⟩,hmembers⟩ := Value.normal_object.mp hn
      have hintegers := (Value.forall_parts_object.mp hi).2
      have hread := members_of?_member_trees (Q := Value.Fits room) fun m hm =>
        ih m hm (hmembers m hm) (hintegers m hm) room
      have htext := embedded_text?_member_trees hlone
      rw [Value.tree]
      by_cases hfirst : (Value.object members).startsMarked = true
      · have hnot : ¬ (Value.object members).Fits (room + 1) := by
          intro hfit
          have hfree := (Value.fits_object.mp hfit).1
          rw [hfirst] at hfree
          contradiction
        rw [if_pos hfirst] at htext
        rw [Value.of_tree_with?_marked htext, if_neg hnot]
        rfl
      · rw [if_neg hfirst] at htext
        rw [Bool.not_eq_true] at hfirst
        rw [Value.of_tree_with?_unmarked htext, hread]
        by_cases hall : ∀ m ∈ members, m.2.Fits room
        · rw [if_pos hall, if_pos (Value.fits_object.mpr ⟨hfirst,hall⟩)]
          simp [Value.sort_members_of_pairwise hsorted]
        · rw [if_neg hall, if_neg fun hfit => hall (Value.fits_object.mp hfit).2]
          rfl

theorem Value.of_tree?_tree (v : Value) (hn : v.Normal) (hi : v.integral = true) (room : Nat) :
    Value.ofTree? room v.tree = if v.Fits room then some v else none :=
  Value.of_tree_with?_tree _ v hn hi room

end Writing

section Plain

variable {room : Nat}

def Tree.IsPlain (room : Nat) (t : Tree) : Prop := (Value.ofPlainTree? room t).isSome

theorem is_plain_string (s : String) : (Tree.ofString s).IsPlain room := by
  simp [Tree.IsPlain, Value.ofPlainTree?, Tree.ofString, Value.ofTreeWith?]

theorem is_plain_integer {i : Int} (h : Number.InRange i) : (Tree.ofInt i).IsPlain room := by
  simp [Tree.IsPlain, Value.ofPlainTree?, Tree.ofInt, Value.ofTreeWith?,
    Number.of_numeral?_of_int h]

theorem is_plain_list {items : List Tree} (h : ∀ t ∈ items, t.IsPlain room) :
    (Tree.list items).IsPlain (room + 1) := by
  have hvalues : (valuesOf? none room items).isSome := by
    induction items with
    | nil => rfl
    | cons t ts ih =>
      obtain ⟨ht,hts⟩ := List.forall_mem_cons.mp h
      obtain ⟨v,hv⟩ := Option.isSome_iff_exists.mp ht
      obtain ⟨vs,hvs⟩ := Option.isSome_iff_exists.mp (ih hts)
      rw [valuesOf?, show Value.ofTreeWith? none room t = some v from hv, hvs]
      rfl
  rw [Tree.IsPlain]
  show ((valuesOf? none room items).map Value.list).isSome
  rw [Option.isSome_map]
  exact hvalues

theorem is_plain_object {members : List (Literal × Tree)}
    (hk : ∀ m ∈ members, ∃ k, m.1 = .ofString k) (h : ∀ m ∈ members, m.2.IsPlain room) :
    (Tree.object members).IsPlain (room + 1) := by
  have hvalues : (membersOf? none room members).isSome := by
    induction members with
    | nil => rfl
    | cons m ms ih =>
      obtain ⟨key,t⟩ := m
      obtain ⟨⟨k,rfl⟩,hkeys⟩ := List.forall_mem_cons.mp hk
      obtain ⟨ht,hts⟩ := List.forall_mem_cons.mp h
      obtain ⟨v,hv⟩ := Option.isSome_iff_exists.mp ht
      obtain ⟨vs,hvs⟩ := Option.isSome_iff_exists.mp (ih hkeys hts)
      rw [membersOf?, show Value.ofTreeWith? none room t = some v from hv, hvs]
      simp
  rw [Tree.IsPlain]
  show ((membersOf? none room members).map fun ms => Value.object (sortMembers ms)).isSome
  rw [Option.isSome_map]
  exact hvalues

theorem Value.is_plain_tree (v : Value) (hn : v.Normal) (hi : v.integral = true) {room : Nat}
    (h : v.depth ≤ room) : v.tree.IsPlain room := by
  rw [Value.integral_iff] at hi
  induction v using Value.induct generalizing room with
  | null => rfl
  | bool b => rfl
  | number n =>
    cases n with
    | integer i => exact is_plain_integer (hn _ List.mem_cons_self)
    | double bits => exact absurd (hi _ List.mem_cons_self) (by simp [Value.isDouble])
  | string s => exact is_plain_string s
  | list items ih =>
    obtain ⟨room,rfl⟩ := Nat.exists_eq_add_of_le' h
    have hitems := Value.normal_list.mp hn
    have hintegers := (Value.forall_parts_list.mp hi).2
    have hdepths := (Value.items_depth_le_iff items _).mp (Nat.le_add_left _ room)
    rw [Value.tree, value_trees_eq, Value.depth, ← Nat.add_assoc]
    apply is_plain_list
    exact List.forall_mem_map.mpr fun v hv =>
      ih v hv (hitems v hv) (hintegers v hv) (hdepths v hv)
  | object members ih =>
    obtain ⟨room,rfl⟩ := Nat.exists_eq_add_of_le' h
    have hmembers := (Value.normal_object.mp hn).2
    have hintegers := (Value.forall_parts_object.mp hi).2
    have hdepths := (Value.members_depth_le_iff members _).mp (Nat.le_add_left _ room)
    rw [Value.tree, member_trees_eq, Value.depth, ← Nat.add_assoc]
    apply is_plain_object
    · exact List.forall_mem_map.mpr fun m _ => ⟨m.1,rfl⟩
    · exact List.forall_mem_map.mpr fun m hm =>
        ih m hm (hmembers m hm) (hintegers m hm) (hdepths m hm)

end Plain

end ComplianceIntake.Json
