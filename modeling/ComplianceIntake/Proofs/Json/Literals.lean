import ComplianceIntake.Json.Quoted
import ComplianceIntake.Proofs.Json.Words

/-!
# Literals that are written

Each character is written as one piece, which is read as this piece and stands
for this character. So the literal of a text is read as it is, stands for the
text, and has no stray octet in it.
-/

set_option autoImplicit false

namespace ComplianceIntake.Json

open ComplianceIntake.Text
open ComplianceIntake.Number

section Literals

theorem Piece.of_char_cases (c : Char) :
    (∃ l ∈ escapeLetters, ofChar c = .letter l ∧ unescape? l = some c) ∨
      (c.toNat < 0x20 ∧
        ofChar c = .unit '0' '0' (hexDigit (c.toNat / 16)) (hexDigit (c.toNat % 16))) ∨
      (Unescaped (.char c) ∧ ofChar c = .plain (.char c)) := by
  by_cases hletter : c ∈ ['"', '\\', '\x08', '\x0c', '\n', '\r', '\t']
  · left
    simp only [List.mem_cons, List.not_mem_nil, or_false] at hletter
    rcases hletter with rfl | rfl | rfl | rfl | rfl | rfl | rfl
    · exact ⟨'"',by decide,rfl,rfl⟩
    · exact ⟨'\\',by decide,rfl,rfl⟩
    · exact ⟨'b',by decide,rfl,rfl⟩
    · exact ⟨'f',by decide,rfl,rfl⟩
    · exact ⟨'n',by decide,rfl,rfl⟩
    · exact ⟨'r',by decide,rfl,rfl⟩
    · exact ⟨'t',by decide,rfl,rfl⟩
  · right
    simp only [List.mem_cons, List.not_mem_nil, or_false, not_or] at hletter
    obtain ⟨hquote,hback,hb,hf,hn,hr,ht⟩ := hletter
    by_cases hcontrol : c.toNat < 0x20
    · left
      exact ⟨hcontrol,by simp [ofChar, hquote, hback, hb, hf, hn, hr, ht, hcontrol]⟩
    · right
      constructor
      · rintro d hd
        cases hd
        exact ⟨by omega,hquote,hback⟩
      · simp [ofChar, hquote, hback, hb, hf, hn, hr, ht, hcontrol]

theorem hex_digit_spec {n : Nat} (h : n < 16) :
    IsHexDigit (hexDigit n) ∧ hexValue? (hexDigit n) = some n := by
  have hall : ∀ d < 16, hexValue? (hexDigit d) = some d := by decide
  refine ⟨?_,hall n h⟩
  rw [← is_some_hex_value?_iff, hall n h]
  rfl

theorem read_chars_of_char (done : List Char) (c : Char) (rest : Literal) :
    readChars done (Piece.ofChar c :: rest) = readChars (c :: done) rest := by
  rcases Piece.of_char_cases c with ⟨l,_,hpiece,hl⟩ | ⟨hcontrol,hpiece⟩ | ⟨_,hpiece⟩
  · rw [hpiece, readChars]
    simp only [hl]
  · have hzero : hexValue? '0' = some 0 := by decide
    have hvalue : unitValue? '0' '0' (hexDigit (c.toNat / 16)) (hexDigit (c.toNat % 16)) =
        some c.toNat := by
      simp [unitValue?, hzero, (hex_digit_spec (n := c.toNat / 16) (by omega)).2,
        (hex_digit_spec (n := c.toNat % 16) (by omega)).2]
      omega
    have hlow : isLowSurrogate c.toNat = false := by
      simp [isLowSurrogate]
      omega
    have hhigh : isHighSurrogate c.toNat = false := by
      simp [isHighSurrogate]
      omega
    rw [hpiece, readChars]
    simp [hvalue, hlow, hhigh]
  · rw [hpiece, readChars]

theorem read_chars_of_string (done cs : List Char) :
    readChars done (cs.map Piece.ofChar) = some (done.reverse ++ cs) := by
  induction cs generalizing done with
  | nil => simp [readChars]
  | cons c cs ih =>
    rw [List.map_cons, read_chars_of_char, ih]
    simp

@[simp] theorem Literal.string?_of_string (s : String) : (Literal.ofString s).string? = some s := by
  simp [Literal.string?, Literal.ofString, read_chars_of_string]

theorem read_pieces_escape {done : Literal} {p : Piece} {gs rest : List Glyph}
    (h : readEscape gs = .ok (p, rest)) :
    readPieces done (.char '\\' :: gs) = readPieces (p :: done) rest := by
  rw [readPieces, if_neg (by decide), if_pos rfl]
  split
  · next he =>
    cases h.symm.trans he
    rfl
  · next he => cases h.symm.trans he

theorem read_escape_letter {l : Char} (h : l ∈ escapeLetters) (rest : List Glyph) :
    readEscape (.char l :: rest) = .ok (.letter l, rest) := by
  have hu : Glyph.char l ≠ .char 'u' := by
    rintro hlu
    cases hlu
    exact absurd h (by decide)
  have hkept : (Glyph.char l).char?.filter (escapeLetters.contains ·) = some l := by
    rw [Glyph.char?, Option.filter_eq_some_iff]
    exact ⟨rfl,List.contains_iff_mem.mpr h⟩
  rw [readEscape, if_neg hu, hkept]

theorem read_escape_unit {a b c d : Char} (h : ∀ x ∈ [a, b, c, d], IsHexDigit x)
    (rest : List Glyph) :
    readEscape (word ['u', a, b, c, d] ++ rest) = .ok (.unit a b c d, rest) := by
  rw [word_cons, List.cons_append, readEscape, if_pos rfl, unit?_complete h]

theorem read_pieces_of_char (done : Literal) (c : Char) (rest : List Glyph) :
    readPieces done ((Piece.ofChar c).glyphs ++ rest) =
      readPieces (Piece.ofChar c :: done) rest := by
  rcases Piece.of_char_cases c with ⟨l,hl,hpiece,_⟩ | ⟨hcontrol,hpiece⟩ | ⟨hc,hpiece⟩
  · rw [hpiece]
    exact read_pieces_escape (read_escape_letter hl rest)
  · have hhex : ∀ x ∈ ['0', '0', hexDigit (c.toNat / 16), hexDigit (c.toNat % 16)],
        IsHexDigit x := by
      have hzero : IsHexDigit '0' := (hex_digit_spec (n := 0) (by decide)).1
      have hhigh := (hex_digit_spec (n := c.toNat / 16) (by omega)).1
      have hlow := (hex_digit_spec (n := c.toNat % 16) (by omega)).1
      simp only [List.forall_mem_cons]
      exact ⟨hzero,hzero,hhigh,hlow,List.forall_mem_nil _⟩
    rw [hpiece]
    exact read_pieces_escape (read_escape_unit hhex rest)
  · obtain ⟨hcontrol,hquote,hback⟩ := (unescaped_iff _).mp hc
    rw [hpiece, Piece.glyphs, List.singleton_append, readPieces, if_neg hquote, if_neg hback,
      if_neg (by simp [hcontrol])]

theorem read_pieces_of_string (done : Literal) (cs : List Char) (rest : List Glyph) :
    readPieces done ((cs.map Piece.ofChar).flatMap Piece.glyphs ++ .char '"' :: rest) =
      .ok (done.reverse ++ cs.map Piece.ofChar, rest) := by
  induction cs generalizing done with
  | nil =>
    rw [List.map_nil, List.flatMap_nil, List.nil_append, readPieces, if_pos rfl, List.append_nil]
  | cons c cs ih =>
    rw [List.map_cons, List.flatMap_cons, List.append_assoc, read_pieces_of_char, ih]
    simp

theorem read_pieces_literal (s : String) (rest : List Glyph) :
    readPieces [] ((Literal.ofString s).flatMap Piece.glyphs ++ .char '"' :: rest) =
      .ok (.ofString s, rest) :=
  read_pieces_of_string [] s.toList rest

end Literals

section Strays

def NoStray (gs : List Glyph) : Prop := ∃ cs, gs = word cs

theorem no_stray_word (cs : List Char) : NoStray (word cs) := ⟨cs,rfl⟩

theorem NoStray.append {gs gs' : List Glyph} (h : NoStray gs) (h' : NoStray gs') :
    NoStray (gs ++ gs') := by
  obtain ⟨cs,rfl⟩ := h
  obtain ⟨cs',rfl⟩ := h'
  exact ⟨cs ++ cs',(word_append cs cs').symm⟩

theorem no_stray_flatten {ts : List (List Glyph)} (h : ∀ t ∈ ts, NoStray t) :
    NoStray ts.flatten := by
  induction ts with
  | nil => exact no_stray_word []
  | cons t ts ih =>
    obtain ⟨ht,hts⟩ := List.forall_mem_cons.mp h
    exact ht.append (ih hts)

theorem no_stray_of_char (c : Char) : NoStray (Piece.ofChar c).glyphs := by
  rcases Piece.of_char_cases c with ⟨l,_,hpiece,_⟩ | ⟨_,hpiece⟩ | ⟨_,hpiece⟩
  · rw [hpiece]
    exact no_stray_word ['\\', l]
  · rw [hpiece]
    exact no_stray_word ['\\', 'u', '0', '0', _, _]
  · rw [hpiece]
    exact no_stray_word [c]

theorem no_stray_literal (s : String) : NoStray (Literal.ofString s).glyphs := by
  have hinner : NoStray ((Literal.ofString s).flatMap Piece.glyphs) := by
    apply no_stray_flatten
    rw [Literal.ofString, List.map_map]
    exact List.forall_mem_map.mpr fun c _ => no_stray_of_char c
  exact (no_stray_word ['"']).append (hinner.append (no_stray_word ['"']))

theorem of_string_filter_map {gs : List Glyph} (h : NoStray gs) :
    Glyph.ofString (String.ofList (gs.filterMap Glyph.char?)) = gs := by
  obtain ⟨cs,rfl⟩ := h
  have hchars : (word cs).filterMap Glyph.char? = cs := by
    simp [word, List.filterMap_map, Function.comp_def, Glyph.char?]
  rw [hchars, Glyph.ofString, String.toList_ofList]
  rfl

end Strays

end ComplianceIntake.Json
