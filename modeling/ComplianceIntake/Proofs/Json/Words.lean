import ComplianceIntake.Proofs.Json.Grammar

/-!
# What the readers of words accept

A reader that succeeds has taken a word of the grammar off the front of its
input. Conversely it takes every such word, and for numbers this needs the text
to go on with something that cannot belong to a number, since digits are taken
as long as there are any. What is read has the spelling of the word.
-/

set_option autoImplicit false

namespace ComplianceIntake.Json

open ComplianceIntake.Text
open ComplianceIntake.Number

@[simp] theorem word_nil : word [] = [] := rfl

@[simp] theorem word_cons (c : Char) (cs : List Char) : word (c :: cs) = .char c :: word cs := rfl

@[simp] theorem word_append (cs ds : List Char) : word (cs ++ ds) = word cs ++ word ds :=
  List.map_append

theorem word_inj {cs ds : List Char} : word cs = word ds ↔ cs = ds :=
  List.map_inj_right fun _ _ => Glyph.char.inj

theorem read_word_eq_ok_iff (cs : List Char) (gs rest : List Glyph) :
    readWord cs gs = .ok rest ↔ gs = word cs ++ rest := by
  induction cs generalizing gs with
  | nil => simp [readWord]
  | cons c cs ih =>
    cases gs with
    | nil => simp [readWord]
    | cons g gs =>
      rw [readWord]
      by_cases hg : g = .char c
      · rw [if_pos hg, ih gs, hg]
        simp
      · rw [if_neg hg]
        simp [hg]

section Digits

theorem digit?_eq_some_iff (g : Glyph) (c : Char) :
    digit? g = some c ↔ g = .char c ∧ IsDigit c := by
  cases g with
  | char d =>
    simp only [digit?, Glyph.char?, Option.filter_eq_some_iff, Option.some.injEq,
      Glyph.char.injEq, is_digit_iff]
  | stray o => simp [digit?, Glyph.char?]

def NoDigit (gs : List Glyph) : Prop := ∀ g, gs.head? = some g → digit? g = none

theorem digit?_eq_none {c : Char} (h : ¬ IsDigit c) : digit? (.char c) = none := by
  rw [Option.eq_none_iff_forall_ne_some]
  intro d hd
  obtain ⟨hc,hd⟩ := (digit?_eq_some_iff _ _).mp hd
  cases hc
  exact h hd

theorem no_digit_char {c : Char} (h : ¬ IsDigit c) (gs : List Glyph) : NoDigit (.char c :: gs) := by
  intro g hg
  cases hg
  exact digit?_eq_none h

theorem take_digits_of_no_digit {gs : List Glyph} (h : NoDigit gs) : takeDigits gs = ([], gs) := by
  cases gs with
  | nil => rfl
  | cons g gs => simp [takeDigits, h g rfl]

theorem take_digits_cons {g : Glyph} {c : Char} (h : digit? g = some c) (gs : List Glyph) :
    takeDigits (g :: gs) = (c :: (takeDigits gs).1, (takeDigits gs).2) := by
  simp [takeDigits, h]

theorem take_digits_spec (gs : List Glyph) :
    gs = word (takeDigits gs).1 ++ (takeDigits gs).2 ∧ ∀ c ∈ (takeDigits gs).1, IsDigit c := by
  induction gs with
  | nil => simp [takeDigits]
  | cons g gs ih =>
    obtain ⟨hgs,hdigits⟩ := ih
    cases hg : digit? g with
    | none =>
      have hno : NoDigit (g :: gs) := fun g' h' => Option.some.inj h' ▸ hg
      simp [take_digits_of_no_digit hno]
    | some c =>
      obtain ⟨rfl,hc⟩ := (digit?_eq_some_iff g c).mp hg
      rw [take_digits_cons hg]
      exact ⟨congrArg (Glyph.char c :: ·) hgs,List.forall_mem_cons.mpr ⟨hc,hdigits⟩⟩

theorem take_digits_append {cs : List Char} (h : ∀ c ∈ cs, IsDigit c) {rest : List Glyph}
    (hr : NoDigit rest) : takeDigits (word cs ++ rest) = (cs, rest) := by
  induction cs with
  | nil => exact take_digits_of_no_digit hr
  | cons c cs ih =>
    have hc : digit? (.char c) = some c :=
      (digit?_eq_some_iff _ c).mpr ⟨rfl,h c List.mem_cons_self⟩
    rw [word_cons, List.cons_append, take_digits_cons hc,
      ih fun d hd => h d (List.mem_cons_of_mem c hd)]

theorem is_digits_take_digits {gs : List Glyph} (h : (takeDigits gs).1.isEmpty = false) :
    IsDigits (takeDigits gs).1 :=
  ⟨List.isEmpty_eq_false_iff.mp h,(take_digits_spec gs).2⟩

end Digits

section Numbers

variable {cs : List Char} {gs rest : List Glyph}

theorem read_whole_sound (h : readWhole gs = .ok (cs, rest)) :
    IsWhole cs ∧ gs = word cs ++ rest := by
  cases gs with
  | nil => contradiction
  | cons g gs =>
    rw [readWhole] at h
    split at h
    · next hg =>
      split at h
      · cases h
        exact ⟨.zero,by rw [hg]; rfl⟩
      · contradiction
    · next hg =>
      split at h
      · next hsome =>
        have htaken : takeDigits (g :: gs) = (cs, rest) := Except.ok.inj h
        obtain ⟨hgs,hdigits⟩ := take_digits_spec (g :: gs)
        rw [htaken] at hgs hdigits
        obtain ⟨c,hc⟩ := Option.isSome_iff_exists.mp hsome
        obtain ⟨rfl,_⟩ := (digit?_eq_some_iff g c).mp hc
        rw [take_digits_cons hc] at htaken
        obtain ⟨rfl,_⟩ := Prod.mk.inj htaken
        have hz : c ≠ '0' := fun h0 => hg (congrArg Glyph.char h0)
        exact ⟨.digits hz ⟨List.cons_ne_nil _ _,hdigits⟩,hgs⟩
      · contradiction

theorem read_whole_complete (h : IsWhole cs) (hr : NoDigit rest) :
    readWhole (word cs ++ rest) = .ok (cs, rest) := by
  cases h with
  | zero => simp [readWhole, take_digits_of_no_digit hr]
  | @digits c cs hz h =>
    have hc : digit? (.char c) = some c :=
      (digit?_eq_some_iff _ c).mpr ⟨rfl,h.digits c List.mem_cons_self⟩
    have hne : Glyph.char c ≠ .char '0' := fun he => hz (Glyph.char.inj he)
    have htaken := take_digits_append h.digits hr
    rw [word_cons, List.cons_append] at htaken ⊢
    rw [readWhole, if_neg hne, hc, if_pos Option.isSome_some, htaken]

def pointed (cs : List Char) : List Char := if cs.isEmpty then [] else '.' :: cs

theorem read_fraction_sound (h : readFraction gs = .ok (cs, rest)) :
    IsFraction (pointed cs) ∧ gs = word (pointed cs) ++ rest := by
  unfold readFraction at h
  split at h
  · next gs =>
    split at h
    · contradiction
    · next hne =>
      rw [Bool.not_eq_true] at hne
      have htaken : takeDigits gs = (cs, rest) := Except.ok.inj h
      have hdigits := is_digits_take_digits hne
      have hgs := (take_digits_spec gs).1
      rw [htaken] at hne hdigits hgs
      rw [pointed, hne]
      exact ⟨.digits hdigits,congrArg (Glyph.char '.' :: ·) hgs⟩
  · cases h
    exact ⟨.absent,rfl⟩

theorem read_fraction_complete (h : IsFraction cs) (hr : NoDigit rest)
    (hp : rest.head? ≠ some (.char '.')) :
    ∃ ds, readFraction (word cs ++ rest) = .ok (ds, rest) ∧ pointed ds = cs := by
  cases h with
  | absent =>
    refine ⟨[],?_,rfl⟩
    unfold readFraction
    split
    · next hrest => exact absurd (congrArg List.head? hrest) hp
    · rfl
  | @digits cs h =>
    have hempty : cs.isEmpty = false := List.isEmpty_eq_false_iff.mpr h.nonempty
    have htaken := take_digits_append h.digits hr
    refine ⟨cs,?_,by rw [pointed, hempty]; rfl⟩
    rw [word_cons, List.cons_append, readFraction, htaken, hempty]
    rfl

def signs : List (List Char) := [[], ['+'], ['-']]

theorem take_sign_spec (gs : List Glyph) :
    (takeSign gs).1.toList ∈ signs ∧ gs = word (takeSign gs).1.toList ++ (takeSign gs).2 := by
  unfold takeSign
  split <;> simp [signs]

theorem take_sign_append {sign : List Char} (hs : sign ∈ signs) (hd : IsDigits cs)
    (rest : List Glyph) :
    takeSign (word sign ++ (word cs ++ rest)) = (sign.head?, word cs ++ rest) := by
  obtain ⟨c,cs,rfl⟩ := List.exists_cons_of_ne_nil hd.nonempty
  have hc := hd.digits c List.mem_cons_self
  simp only [signs, List.mem_cons, List.not_mem_nil, or_false] at hs
  rcases hs with rfl | rfl | rfl
  · unfold takeSign
    split
    · next h =>
      cases h
      exact absurd hc (by decide)
    · next h =>
      cases h
      exact absurd hc (by decide)
    · rfl
  · rfl
  · rfl

def exponentText : Option Exponent → List Char
  | some e => e.chars
  | none => []

theorem read_exponent_digits_sound {marker : Char} (hm : marker ∈ ['e', 'E']) {e : Option Exponent}
    (h : readExponentDigits marker gs = .ok (e, rest)) :
    IsExponent (exponentText e) ∧ .char marker :: gs = word (exponentText e) ++ rest := by
  unfold readExponentDigits at h
  split at h
  · contradiction
  · next hne =>
    rw [Bool.not_eq_true] at hne
    cases h
    obtain ⟨hsign,hgs⟩ := take_sign_spec gs
    have hdigits := is_digits_take_digits hne
    have htaken := (take_digits_spec (takeSign gs).2).1
    refine ⟨.digits hm hsign hdigits,?_⟩
    rw [exponentText, Exponent.chars, word_cons, word_append, List.cons_append, List.append_assoc,
      ← htaken, ← hgs]

theorem read_exponent_sound {e : Option Exponent} (h : readExponent gs = .ok (e, rest)) :
    IsExponent (exponentText e) ∧ gs = word (exponentText e) ++ rest := by
  unfold readExponent at h
  split at h
  · exact read_exponent_digits_sound (by decide) h
  · exact read_exponent_digits_sound (by decide) h
  · cases h
    exact ⟨.absent,rfl⟩

def Stops (gs : List Glyph) : Prop :=
  ∀ g, gs.head? = some g → digit? g = none ∧ ∀ c, g = .char c → c ∉ ['.', 'e', 'E']

theorem Stops.no_digit (h : Stops gs) : NoDigit gs := fun g hg => (h g hg).1

theorem Stops.head_ne (h : Stops gs) {c : Char} (hc : c ∈ ['.', 'e', 'E']) :
    gs.head? ≠ some (.char c) := fun hg => (h _ hg).2 c rfl hc

theorem read_exponent_complete (h : IsExponent cs) (hr : Stops rest) :
    ∃ e, readExponent (word cs ++ rest) = .ok (e, rest) ∧ exponentText e = cs := by
  cases h with
  | absent =>
    refine ⟨none,?_,rfl⟩
    unfold readExponent
    split
    · next hrest => exact absurd (congrArg List.head? hrest) (hr.head_ne (by decide))
    · next hrest => exact absurd (congrArg List.head? hrest) (hr.head_ne (by decide))
    · rfl
  | @digits marker sign cs hm hs h =>
    have hempty : cs.isEmpty = false := List.isEmpty_eq_false_iff.mpr h.nonempty
    have hread : readExponentDigits marker (word (sign ++ cs) ++ rest) =
        .ok (some ⟨marker, sign.head?, cs⟩, rest) := by
      rw [word_append, List.append_assoc, readExponentDigits, take_sign_append hs h,
        take_digits_append h.digits hr.no_digit]
      simp [hempty]
    have htext : sign.head?.toList = sign := by
      have hall : ∀ sign ∈ signs, sign.head?.toList = sign := by decide
      exact hall sign hs
    refine ⟨some ⟨marker, sign.head?, cs⟩,?_,by rw [exponentText, Exponent.chars, htext]⟩
    simp only [List.mem_cons, List.not_mem_nil, or_false] at hm
    rcases hm with rfl | rfl <;> exact hread

theorem IsExponent.head (h : IsExponent cs) (hr : Stops rest) :
    NoDigit (word cs ++ rest) ∧ (word cs ++ rest).head? ≠ some (.char '.') := by
  cases h with
  | absent => exact ⟨hr.no_digit,hr.head_ne (by decide)⟩
  | digits hm hs h =>
    have hmarker : ∀ c ∈ ['e', 'E'], ¬ IsDigit c ∧ c ≠ '.' :=
      List.all_iff_forall_prop.mp (by decide)
    obtain ⟨hdigit,hpoint⟩ := hmarker _ hm
    refine ⟨no_digit_char hdigit _,?_⟩
    intro he
    exact hpoint (Glyph.char.inj (Option.some.inj he))

theorem IsFraction.head (h : IsFraction cs) (hr : NoDigit rest) : NoDigit (word cs ++ rest) := by
  cases h with
  | absent => exact hr
  | digits h => exact no_digit_char (by decide) _

def minus (negative : Bool) : List Char := if negative then ['-'] else []

theorem Numeral.chars_eq (n : Numeral) :
    n.chars = minus n.negative ++ (n.whole ++ (pointed n.fraction ++ exponentText n.exponent)) := by
  have hexponent : n.exponentChars = exponentText n.exponent := by
    unfold Numeral.exponentChars exponentText
    cases n.exponent <;> rfl
  rw [Numeral.chars, hexponent, List.append_assoc, List.append_assoc]
  rfl

theorem read_numeral_sound {negative : Bool} {n : Numeral}
    (h : readNumeral negative gs = .ok (n, rest)) :
    ∃ cs, IsUnsigned cs ∧ gs = word cs ++ rest := by
  obtain ⟨gs₁,gs₂,hw,hf,he⟩ := read_numeral_parts h
  obtain ⟨hwhole,hgs⟩ := read_whole_sound hw
  obtain ⟨hfraction,hgs₁⟩ := read_fraction_sound hf
  obtain ⟨hexponent,hgs₂⟩ := read_exponent_sound he
  refine ⟨_,.parts hwhole hfraction hexponent,?_⟩
  rw [word_append, word_append, List.append_assoc, List.append_assoc, ← hgs₂, ← hgs₁, ← hgs]

theorem read_numeral_complete (negative : Bool) (h : IsUnsigned cs) (hr : Stops rest) :
    ∃ n, readNumeral negative (word cs ++ rest) = .ok (n, rest) ∧
      n.chars = minus negative ++ cs := by
  cases h with
  | @parts whole fraction exponent hw hf he =>
    obtain ⟨hdigit,hpoint⟩ := he.head hr
    obtain ⟨ds,hfraction,hds⟩ := read_fraction_complete hf hdigit hpoint
    obtain ⟨e,hexponent,hetext⟩ := read_exponent_complete he hr
    have hwhole := read_whole_complete hw (hf.head hdigit)
    refine ⟨⟨negative, whole, ds, e⟩,?_,by rw [Numeral.chars_eq, hds, hetext]⟩
    rw [word_append, word_append, List.append_assoc, List.append_assoc, readNumeral, hwhole]
    simp only [bind, Except.bind, hfraction, hexponent, pure, Except.pure]

end Numbers

section Strings

theorem hex_glyph?_eq_some_iff (g : Glyph) (c : Char) :
    hexGlyph? g = some c ↔ g = .char c ∧ IsHexDigit c := by
  cases g with
  | char d =>
    simp only [hexGlyph?, Glyph.char?, Option.filter_eq_some_iff, Option.some.injEq,
      Glyph.char.injEq, is_some_hex_value?_iff]
  | stray o => simp [hexGlyph?, Glyph.char?]

variable {gs rest : List Glyph} {p : Piece}

theorem unit?_sound (h : unit? gs = some (p, rest)) :
    ∃ a b c d, (∀ x ∈ [a, b, c, d], IsHexDigit x) ∧ gs = word [a, b, c, d] ++ rest := by
  unfold unit? at h
  split at h
  · simp only [Option.bind_eq_bind, Option.bind_eq_some_iff, Option.pure_def, Option.some.injEq,
      Prod.mk.injEq, hex_glyph?_eq_some_iff] at h
    obtain ⟨a,⟨rfl,ha⟩,b,⟨rfl,hb⟩,c,⟨rfl,hc⟩,d,⟨rfl,hd⟩,_,rfl⟩ := h
    exact ⟨a,b,c,d,by simp [ha, hb, hc, hd],rfl⟩
  · contradiction

theorem unit?_complete {a b c d : Char} (h : ∀ x ∈ [a, b, c, d], IsHexDigit x)
    (rest : List Glyph) : unit? (word [a, b, c, d] ++ rest) = some (.unit a b c d, rest) := by
  have hglyph : ∀ x ∈ [a, b, c, d], hexGlyph? (.char x) = some x :=
    fun x hx => (hex_glyph?_eq_some_iff _ x).mpr ⟨rfl,h x hx⟩
  simp [unit?, hglyph]

theorem read_escape_sound (h : readEscape gs = .ok (p, rest)) :
    ∃ esc, IsEscape esc ∧ gs = esc ++ rest := by
  cases gs with
  | nil => contradiction
  | cons g gs =>
    rw [readEscape] at h
    split at h
    · next hg =>
      split at h
      · next found hf =>
        cases h
        obtain ⟨a,b,c,d,hhex,rfl⟩ := unit?_sound hf
        exact ⟨_,.unit hhex,by rw [hg]; rfl⟩
      · contradiction
    · split at h
      · next c hc =>
        cases h
        obtain ⟨hgc,hletter⟩ := Option.filter_eq_some_iff.mp hc
        cases g with
        | char d =>
          cases hgc
          exact ⟨_,.letter (List.contains_iff_mem.mp hletter),rfl⟩
        | stray o => contradiction
      · contradiction

theorem read_escape_complete {esc : List Glyph} (h : IsEscape esc) :
    ∃ p, p.glyphs = .char '\\' :: esc ∧ ∀ rest, readEscape (esc ++ rest) = .ok (p, rest) := by
  cases h with
  | @letter c hc =>
    refine ⟨.letter c,rfl,?_⟩
    intro rest
    have hu : Glyph.char c ≠ .char 'u' := by
      rintro hcu
      cases hcu
      exact absurd hc (by decide)
    have hkept : (Glyph.char c).char?.filter (escapeLetters.contains ·) = some c := by
      rw [Glyph.char?, Option.filter_eq_some_iff]
      exact ⟨rfl,List.contains_iff_mem.mpr hc⟩
    rw [word_cons, List.cons_append, readEscape, if_neg hu, hkept]
    rfl
  | @unit a b c d hhex =>
    refine ⟨.unit a b c d,rfl,?_⟩
    intro rest
    rw [word_cons, List.cons_append, readEscape, if_pos rfl, unit?_complete hhex]

theorem unescaped_iff (g : Glyph) : Unescaped g ↔
    isControl g = false ∧ g ≠ .char '"' ∧ g ≠ .char '\\' := by
  cases g with
  | char c => simp [Unescaped, isControl]
  | stray o => simp [Unescaped, isControl]

theorem read_pieces_sound {done l : Literal} (h : readPieces done gs = .ok (l, rest)) :
    ∃ inner, IsInner inner ∧ gs = inner ++ .char '"' :: rest := by
  fun_induction readPieces done gs with
  | case1 => contradiction
  | case2 done gs =>
    cases h
    exact ⟨[],.nil,rfl⟩
  | case3 done gs p gs' he hq ih =>
    obtain ⟨esc,hesc,rfl⟩ := read_escape_sound he
    obtain ⟨inner,hinner,rfl⟩ := ih h
    exact ⟨_,IsInner.escaped hesc hinner,by simp⟩
  | case4 => contradiction
  | case5 => contradiction
  | case6 done g gs hq hb hc ih =>
    obtain ⟨inner,hinner,rfl⟩ := ih h
    have hg : Unescaped g := (unescaped_iff g).mpr ⟨by simpa using hc,hq,hb⟩
    exact ⟨g :: inner,.unescaped hg hinner,rfl⟩

theorem read_pieces_complete {inner : List Glyph} (h : IsInner inner) :
    ∃ l : Literal, l.flatMap Piece.glyphs = inner ∧
      ∀ done rest,
        readPieces done (inner ++ .char '"' :: rest) = .ok (done.reverse ++ l, rest) := by
  induction h with
  | nil =>
    refine ⟨[],rfl,?_⟩
    intro done rest
    rw [List.nil_append, readPieces, if_pos rfl, List.append_nil]
  | @unescaped g gs hg _ ih =>
    obtain ⟨l,hl,hread⟩ := ih
    obtain ⟨hc,hq,hb⟩ := (unescaped_iff g).mp hg
    refine ⟨.plain g :: l,by rw [List.flatMap_cons, hl]; rfl,?_⟩
    intro done rest
    rw [List.cons_append, readPieces, if_neg hq, if_neg hb, if_neg (by simp [hc]), hread]
    simp
  | @escaped esc gs hesc _ ih =>
    obtain ⟨l,hl,hread⟩ := ih
    obtain ⟨p,hp,hpread⟩ := read_escape_complete hesc
    refine ⟨p :: l,by rw [List.flatMap_cons, hp, hl]; rfl,?_⟩
    intro done rest
    rw [List.cons_append, List.append_assoc, readPieces, if_neg (by decide), if_pos rfl]
    split
    · next p' rest' he =>
      cases (hpread _).symm.trans he
      rw [hread]
      simp
    · next he => cases (hpread _).symm.trans he

end Strings

end ComplianceIntake.Json
