import ComplianceIntake.Json.Record
import ComplianceIntake.Proofs.Json.Completeness
import ComplianceIntake.Proofs.Json.Integers
import ComplianceIntake.Proofs.Json.Literals
import ComplianceIntake.Proofs.Text.Octets

/-!
# What is written is read

The trees that are written have the literals of texts and, as far as they are
considered here, the numerals of integers. Where the reader expects a value it
takes the text of such a tree and goes on with this very tree, whatever is open.
-/

set_option autoImplicit false

namespace ComplianceIntake.Json

open ComplianceIntake.Text
open ComplianceIntake.Number

/-- The trees that are written, as far as their numbers are integers. -/
inductive Tree.Written : Tree → Prop
  | null : Written .null
  | bool (b : Bool) : Written (.bool b)
  | integer (i : Int) : Written (.ofInt i)
  | string (s : String) : Written (.ofString s)
  | list {items : List Tree} (h : ∀ t ∈ items, Written t) : Written (.list items)
  | object {members : List (Literal × Tree)} (hk : ∀ m ∈ members, ∃ k, m.1 = .ofString k)
      (h : ∀ m ∈ members, Written m.2) : Written (.object members)

section Numerals

variable {rest : List Glyph}

theorem read_numeral_whole (b : Bool) {ds : List Char} (h : IsWhole ds) (hr : Stops rest) :
    readNumeral b (word ds ++ rest) = .ok (⟨b, ds, [], none⟩, rest) := by
  have hfraction : readFraction rest = .ok ([], rest) := by
    obtain ⟨ds,hread,hds⟩ :=
      read_fraction_complete .absent hr.no_digit (hr.head_ne (c := '.') (by decide))
    cases ds with
    | nil => exact hread
    | cons d ds => cases hds
  have hexponent : readExponent rest = .ok (none, rest) := by
    obtain ⟨e,hread,he⟩ := read_exponent_complete .absent hr
    cases e with
    | none => exact hread
    | some e => cases he
  rw [readNumeral, read_whole_complete h hr.no_digit]
  simp only [bind, Except.bind, hfraction, hexponent, pure, Except.pure]

theorem Numeral.of_int_chars (i : Int) :
    (Numeral.ofInt i).chars = minus (decide (i < 0)) ++ toDigits i.natAbs := by
  simp [Numeral.chars_eq, Numeral.ofInt, pointed, exponentText]

theorem is_number_of_int (i : Int) : IsNumber (Numeral.ofInt i).chars := by
  have hparts := IsUnsigned.parts (is_whole_to_digits i.natAbs) .absent .absent
  have hdigits : IsUnsigned (toDigits i.natAbs) := by simpa using hparts
  rw [Numeral.of_int_chars]
  by_cases hi : i < 0
  · simpa [minus, hi] using IsNumber.minus hdigits
  · simpa [minus, hi] using IsNumber.unsigned hdigits

theorem start_value_integer (i : Int) (hr : Stops rest) (stack : List Frame) :
    startValue stack (word (Numeral.ofInt i).chars ++ rest) =
      .ok (.going (.finished (.ofInt i)) stack rest) := by
  have hwhole := is_whole_to_digits i.natAbs
  have hread : ∀ b, decide (i < 0) = b →
      readNumeral b (word (toDigits i.natAbs) ++ rest) = .ok (.ofInt i, rest) := by
    rintro b rfl
    exact read_numeral_whole _ hwhole hr
  rw [Numeral.of_int_chars]
  by_cases hi : i < 0
  · rw [decide_eq_true hi]
    exact start_value_minus rfl (hread true (decide_eq_true hi)) stack
  · have hdigits := hread false (decide_eq_false hi)
    obtain ⟨c,ds,hds⟩ := List.exists_cons_of_ne_nil hwhole.is_digits.nonempty
    have hc : IsDigit c := hwhole.is_digits.digits c (by rw [hds]; exact List.mem_cons_self)
    have hspace : isSpace (.char c) = false := (IsNumberChar.bare (Or.inl hc)).1
    have hfirst : skipSpace (.char c :: (word ds ++ rest)) = .char c :: (word ds ++ rest) :=
      List.dropWhile_cons_of_neg (by simp [hspace])
    rw [decide_eq_false hi]
    rw [hds, word_cons, List.cons_append] at hdigits
    rw [minus, if_neg Bool.false_ne_true, List.nil_append, hds, word_cons, List.cons_append]
    exact start_value_digit hc hfirst hdigits stack

end Numerals

section Trees

variable {t : Tree} {items : List Tree} {members : List (Literal × Tree)} {rest : List Glyph}

theorem Tree.Written.opens (h : t.Written) : ∃ g gs, t.glyphs = g :: gs ∧ Opens g := by
  cases h with
  | null => exact ⟨_,_,rfl,opens_char (by decide)⟩
  | bool b => cases b <;> exact ⟨_,_,rfl,opens_char (by decide)⟩
  | integer i =>
    have hnumber := is_number_of_int i
    obtain ⟨c,cs,hcs⟩ := List.exists_cons_of_ne_nil hnumber.ne_nil
    have hc : IsNumberChar c := hnumber.number_chars c (by rw [hcs]; exact List.mem_cons_self)
    exact ⟨.char c,word cs,by simp [Tree.glyphs, Tree.ofInt, Tree.lexemes, hcs],hc.opens⟩
  | string s => exact ⟨_,_,rfl,opens_char (by decide)⟩
  | list _ => exact ⟨_,_,rfl,opens_char (by decide)⟩
  | object _ _ => exact ⟨_,_,rfl,opens_char (by decide)⟩

theorem ends_mark {c : Char} (hc : c ∈ [',', ']', '}']) (gs : List Glyph) :
    Ends (.char c :: gs) := by
  intro g hg
  cases hg
  exact Or.inr ⟨c,hc,rfl⟩

def Tree.IsTaken (t : Tree) : Prop :=
  ∀ rest stack, Ends rest →
    readFrom .expecting stack (t.glyphs ++ rest) = readFrom (.finished t) stack rest

theorem is_taken_of_start
    (h : ∀ rest stack, Stops rest →
      startValue stack (t.glyphs ++ rest) = .ok (.going (.finished t) stack rest)) :
    t.IsTaken :=
  fun rest stack he => read_from_going (h rest stack he.stops)

theorem is_taken_word {cs : List Char} (hg : t.glyphs = word cs)
    (h : ∀ gs stack, startValue stack (word cs ++ gs) =
      finishWith t stack (readWord cs.tail (word cs.tail ++ gs))) : t.IsTaken := by
  apply is_taken_of_start
  intro rest stack _
  rw [hg, h, (read_word_eq_ok_iff _ _ rest).mpr rfl]
  rfl

theorem is_taken_string (s : String) : (Tree.ofString s).IsTaken := by
  apply is_taken_of_start
  intro rest stack _
  have hglyphs : (Tree.ofString s).glyphs ++ rest =
      .char '"' :: ((Literal.ofString s).flatMap Piece.glyphs ++ .char '"' :: rest) := by
    simp [Tree.glyphs, Tree.ofString, Tree.lexemes, Literal.glyphs]
  rw [hglyphs]
  exact start_value_string rfl (read_pieces_literal s rest) stack

theorem is_taken_integer (i : Int) : (Tree.ofInt i).IsTaken := by
  apply is_taken_of_start
  intro rest stack hr
  have hglyphs : (Tree.ofInt i).glyphs = word (Numeral.ofInt i).chars := by
    simp [Tree.glyphs, Tree.ofInt, Tree.lexemes]
  rw [hglyphs]
  exact start_value_integer i hr stack

theorem read_from_items (hne : items ≠ []) (h : ∀ t ∈ items, t.IsTaken) (done : List Tree)
    (stack : List Frame) (rest : List Glyph) :
    readFrom .expecting (.list done :: stack) ((itemLexemes items).flatten ++ .char ']' :: rest) =
      readFrom (.finished (.list (done.reverse ++ items))) stack rest := by
  induction items generalizing done with
  | nil => contradiction
  | cons t items ih =>
    obtain ⟨ht,hitems⟩ := List.forall_mem_cons.mp h
    by_cases hlast : items = []
    · subst hlast
      rw [itemLexemes, show t.lexemes.flatten = t.glyphs from rfl,
        ht _ _ (ends_mark (by decide) rest), read_from_going (step_end_list rfl)]
      simp
    · have htext : (itemLexemes (t :: items)).flatten ++ .char ']' :: rest =
          t.glyphs ++ .char ',' :: ((itemLexemes items).flatten ++ .char ']' :: rest) := by
        simp [item_lexemes_cons t hlast, Tree.glyphs]
      rw [htext, ht _ _ (ends_mark (by decide) _), read_from_going (step_comma_list rfl),
        ih hlast hitems]
      simp

theorem read_key_written (done : List (Literal × Tree)) (stack : List Frame) (k : String)
    (gs : List Glyph) :
    readKey done stack ((Literal.ofString k).glyphs ++ .char ':' :: gs) =
      .ok (.going .expecting (.object done (.ofString k) :: stack) gs) := by
  have htext : skipSpace ((Literal.ofString k).glyphs ++ .char ':' :: gs) = .char '"' ::
      ((Literal.ofString k).flatMap Piece.glyphs ++ .char '"' :: (.char ':' :: gs)) := by
    simp [Literal.glyphs, skipSpace, isSpace]
  rw [readKey, htext]
  simp [read_pieces_literal, skipSpace, isSpace]

theorem read_key_members (hne : members ≠ []) (hk : ∀ m ∈ members, ∃ k, m.1 = .ofString k)
    (h : ∀ m ∈ members, m.2.IsTaken) (done : List (Literal × Tree)) (stack : List Frame)
    (rest : List Glyph) :
    follow (readKey done stack ((memberLexemes members).flatten ++ .char '}' :: rest)) =
      readFrom (.finished (.object (done.reverse ++ members))) stack rest := by
  induction members generalizing done with
  | nil => contradiction
  | cons m members ih =>
    obtain ⟨key,t⟩ := m
    obtain ⟨⟨k,rfl⟩,hkeys⟩ := List.forall_mem_cons.mp hk
    obtain ⟨ht,hmembers⟩ := List.forall_mem_cons.mp h
    by_cases hlast : members = []
    · subst hlast
      have htext : (memberLexemes [(Literal.ofString k, t)]).flatten ++ .char '}' :: rest =
          (Literal.ofString k).glyphs ++ .char ':' :: (t.glyphs ++ .char '}' :: rest) := by
        simp [memberLexemes, Tree.glyphs]
      rw [htext, read_key_written, follow, ht _ _ (ends_mark (by decide) rest),
        read_from_going (step_end_object rfl)]
      simp
    · have htext : (memberLexemes ((Literal.ofString k, t) :: members)).flatten ++
            .char '}' :: rest =
          (Literal.ofString k).glyphs ++ .char ':' :: (t.glyphs ++ .char ',' ::
            ((memberLexemes members).flatten ++ .char '}' :: rest)) := by
        simp [member_lexemes_cons _ t hlast, Tree.glyphs]
      rw [htext, read_key_written, follow, ht _ _ (ends_mark (by decide) _), read_from_eq_follow,
        step_comma_object rfl, ih hlast hkeys hmembers]
      simp

theorem is_taken_list (hw : ∀ t ∈ items, t.Written) (h : ∀ t ∈ items, t.IsTaken) :
    (Tree.list items).IsTaken := by
  intro rest stack _
  have htext : (Tree.list items).glyphs ++ rest =
      .char '[' :: ((itemLexemes items).flatten ++ .char ']' :: rest) := by
    simp [Tree.glyphs, Tree.lexemes]
  rw [htext, read_from_eq_follow]
  show follow (openList stack ((itemLexemes items).flatten ++ .char ']' :: rest)) = _
  by_cases hempty : items = []
  · subst hempty
    rfl
  · obtain ⟨t,items,rfl⟩ := List.exists_cons_of_ne_nil hempty
    obtain ⟨g,gs,hgs,hspace,hend⟩ := (hw t List.mem_cons_self).opens
    have hhead : ∃ gs', (itemLexemes (t :: items)).flatten = g :: gs' := by
      by_cases hlast : items = []
      · subst hlast
        exact ⟨gs,hgs⟩
      · rw [item_lexemes_cons t hlast, List.flatten_append,
          show t.lexemes.flatten = g :: gs from hgs]
        exact ⟨_,rfl⟩
    obtain ⟨gs',hgs'⟩ := hhead
    have hread := read_from_items hempty h [] stack rest
    rw [hgs', List.cons_append] at hread ⊢
    rw [openList, skipSpace, List.dropWhile_cons_of_neg (by simp [hspace])]
    simp only [if_neg hend]
    exact hread

theorem is_taken_object (hk : ∀ m ∈ members, ∃ k, m.1 = .ofString k)
    (h : ∀ m ∈ members, m.2.IsTaken) : (Tree.object members).IsTaken := by
  intro rest stack _
  have htext : (Tree.object members).glyphs ++ rest =
      .char '{' :: ((memberLexemes members).flatten ++ .char '}' :: rest) := by
    simp [Tree.glyphs, Tree.lexemes]
  rw [htext, read_from_eq_follow]
  show follow (openObject stack ((memberLexemes members).flatten ++ .char '}' :: rest)) = _
  by_cases hempty : members = []
  · subst hempty
    rfl
  · have hread := read_key_members hempty hk h [] stack rest
    obtain ⟨⟨key,t⟩,members,rfl⟩ := List.exists_cons_of_ne_nil hempty
    have hhead : ∃ gs', (memberLexemes ((key, t) :: members)).flatten = .char '"' :: gs' := by
      by_cases hlast : members = []
      · subst hlast
        exact ⟨_,rfl⟩
      · rw [member_lexemes_cons key t hlast]
        exact ⟨_,rfl⟩
    obtain ⟨gs',hgs'⟩ := hhead
    rw [hgs', List.cons_append] at hread ⊢
    exact hread

theorem Tree.Written.is_taken (h : t.Written) : t.IsTaken := by
  induction h with
  | null => exact is_taken_word rfl fun gs stack => start_value_null rfl stack
  | bool b =>
    cases b with
    | false => exact is_taken_word rfl fun gs stack => start_value_bool false rfl rfl stack
    | true => exact is_taken_word rfl fun gs stack => start_value_bool true rfl rfl stack
  | integer i => exact is_taken_integer i
  | string s => exact is_taken_string s
  | list hw ih => exact is_taken_list hw ih
  | object hk _ ih => exact is_taken_object hk ih

theorem no_stray_items (h : ∀ t ∈ items, NoStray t.glyphs) :
    NoStray (itemLexemes items).flatten := by
  induction items with
  | nil => exact no_stray_word []
  | cons t items ih =>
    obtain ⟨ht,hitems⟩ := List.forall_mem_cons.mp h
    by_cases hlast : items = []
    · subst hlast
      exact ht
    · rw [item_lexemes_cons t hlast, List.flatten_append, List.flatten_cons]
      exact ht.append ((no_stray_word [',']).append (ih hitems))

theorem no_stray_members (hk : ∀ m ∈ members, ∃ k, m.1 = .ofString k)
    (h : ∀ m ∈ members, NoStray m.2.glyphs) : NoStray (memberLexemes members).flatten := by
  induction members with
  | nil => exact no_stray_word []
  | cons m members ih =>
    obtain ⟨key,t⟩ := m
    obtain ⟨⟨k,rfl⟩,hkeys⟩ := List.forall_mem_cons.mp hk
    obtain ⟨ht,hmembers⟩ := List.forall_mem_cons.mp h
    have hfirst : NoStray ((Literal.ofString k).glyphs ++ (word [':'] ++ t.glyphs)) :=
      (no_stray_literal k).append ((no_stray_word [':']).append ht)
    by_cases hlast : members = []
    · subst hlast
      exact hfirst
    · have hrest := hfirst.append ((no_stray_word [',']).append (ih hkeys hmembers))
      simpa [member_lexemes_cons _ t hlast, Tree.glyphs] using hrest

theorem Tree.Written.no_stray (h : t.Written) : NoStray t.glyphs := by
  induction h with
  | null => exact no_stray_word nullChars
  | bool b => exact ⟨wordChars b,by simp [Tree.glyphs, Tree.lexemes]⟩
  | integer i => exact ⟨(Numeral.ofInt i).chars,by simp [Tree.glyphs, Tree.ofInt, Tree.lexemes]⟩
  | string s =>
    have hliteral := no_stray_literal s
    simpa [Tree.glyphs, Tree.ofString, Tree.lexemes] using hliteral
  | list _ ih =>
    have hlist := (no_stray_word ['[']).append ((no_stray_items ih).append (no_stray_word [']']))
    simpa [Tree.glyphs, Tree.lexemes] using hlist
  | object hk _ ih =>
    have hmembers := (no_stray_members hk ih).append (no_stray_word ['}'])
    have hobject := (no_stray_word ['{']).append hmembers
    simpa [Tree.glyphs, Tree.lexemes] using hobject

/-- The text of a written tree is read as this tree. -/
theorem Tree.Written.read (h : t.Written) : read (Glyph.ofString t.text) = .ok t := by
  have htaken := h.is_taken [] [] ends_nil
  have hdone : readFrom (.finished t) [] [] = .ok t := read_from_complete rfl
  rw [List.append_nil, hdone] at htaken
  rw [Tree.text, of_string_filter_map h.no_stray, read_eq_ok_iff]
  exact htaken

theorem Tree.Written.read_tree? (h : t.Written) : readTree? (octets t.text) = some t := by
  rw [Json.readTree?, of_octets_octets, h.read]
  rfl

end Trees

end ComplianceIntake.Json
