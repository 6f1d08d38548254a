import ComplianceIntake.Json.Fault
import ComplianceIntake.Number.Numeral

/-!
# The words of JSON

The lexemes that have inner structure are string literals, kept as pieces, and
numerals. A piece is a plain glyph, a one-letter escape, or an escaped UTF-16
unit; neither surrogates nor octets are judged here, so a literal can be
skipped without being understood. Each reader gives the lexeme and a rest that
is shorter than its input.
-/

set_option autoImplicit false

namespace ComplianceIntake.Json

open ComplianceIntake.Text
open ComplianceIntake.Number

inductive Piece where
  | plain (g : Glyph)
  | letter (c : Char)
  | unit (a b c d : Char)
  deriving DecidableEq, Repr

def Piece.glyphs : Piece → List Glyph
  | .plain g => [g]
  | .letter c => [.char '\\', .char c]
  | .unit a b c d => [.char '\\', .char 'u', .char a, .char b, .char c, .char d]

abbrev Literal := List Piece

def Literal.glyphs (l : Literal) : List Glyph :=
  .char '"' :: (l.flatMap Piece.glyphs ++ [.char '"'])

def isSpace (g : Glyph) : Bool :=
  g = .char ' ' || g = .char '\t' || g = .char '\n' || g = .char '\r'

def skipSpace (gs : List Glyph) : List Glyph := gs.dropWhile isSpace

def escapeLetters : List Char := ['"', '\\', '/', 'b', 'f', 'n', 'r', 't']

def hexGlyph? (g : Glyph) : Option Char :=
  g.char?.filter fun c => (hexValue? c).isSome

def isControl : Glyph → Bool
  | .char c => c.toNat < 0x20
  | .stray _ => false

def digit? (g : Glyph) : Option Char := g.char?.filter isDigit

/-- An escaped unit is cut off by the end of the text unless four octets are left. -/
def unitStop (rest : List Glyph) : Stop :=
  if 4 ≤ Glyph.totalWidth rest then ⟨.invalidEscape, rest, 4⟩ else .atEnd .endOfString

def unit? : List Glyph → Option (Piece × List Glyph)
  | a :: b :: c :: d :: rest => do
    let a ← hexGlyph? a
    let b ← hexGlyph? b
    let c ← hexGlyph? c
    let d ← hexGlyph? d
    return (.unit a b c d, rest)
  | _ => none

theorem unit?_length {gs rest : List Glyph} {p : Piece} (h : unit? gs = some (p, rest)) :
    rest.length < gs.length := by
  unfold unit? at h
  split at h
  · simp only [Option.bind_eq_bind, Option.bind_eq_some_iff, Option.pure_def,
      Option.some.injEq, Prod.mk.injEq] at h
    obtain ⟨_, _, _, _, _, _, _, _, _, rfl⟩ := h
    simp
    omega
  · simp at h

def readEscape : List Glyph → Except Stop (Piece × List Glyph)
  | [] => .error (.atEnd .endOfString)
  | g :: rest =>
    if g = .char 'u' then
      match unit? rest with
      | some found => .ok found
      | none => .error (unitStop rest)
    else
      match g.char?.filter (escapeLetters.contains ·) with
      | some c => .ok (.letter c, rest)
      | none => .error ⟨.invalidEscape, g :: rest, 1⟩

theorem read_escape_length {gs rest : List Glyph} {p : Piece}
    (h : readEscape gs = .ok (p, rest)) : rest.length < gs.length := by
  cases gs with
  | nil => simp [readEscape] at h
  | cons g gs =>
    simp only [readEscape] at h
    split at h
    · split at h
      · rename_i found hf
        cases h
        have := unit?_length hf
        simp
        omega
      · simp at h
    · split at h
      · cases h
        simp
      · simp at h

def readPieces (done : Literal) (gs : List Glyph) : Except Stop (Literal × List Glyph) :=
  match gs with
  | [] => .error (.atEnd .endOfString)
  | g :: rest =>
    if g = .char '"' then .ok (done.reverse, rest)
    else if g = .char '\\' then
      match _h : readEscape rest with
      | .ok (p, rest') => readPieces (p :: done) rest'
      | .error s => .error s
    else if isControl g then .error ⟨.controlCharacter, g :: rest, 0⟩
    else readPieces (.plain g :: done) rest
  termination_by gs.length
  decreasing_by
    · have := read_escape_length _h
      simp
      omega
    · simp

theorem read_pieces_length (done l : Literal) (gs rest : List Glyph)
    (h : readPieces done gs = .ok (l, rest)) : rest.length < gs.length := by
  fun_induction readPieces done gs with
  | case1 => simp at h
  | case2 =>
    cases h
    simp
  | case3 done rest' p r he hq ih =>
    have := read_escape_length he
    have := ih h
    simp
    omega
  | case4 => simp at h
  | case5 => simp at h
  | case6 done g rest' hq hb hc ih =>
    have := ih h
    simp
    omega

def readWord : List Char → List Glyph → Except Stop (List Glyph)
  | [], gs => .ok gs
  | _ :: _, [] => .error (.atEnd .endOfValue)
  | c :: cs, g :: gs =>
    if g = .char c then readWord cs gs else .error ⟨.expectedIdent, g :: gs, 1⟩

theorem read_word_length {cs : List Char} {gs rest : List Glyph}
    (h : readWord cs gs = .ok rest) : rest.length ≤ gs.length := by
  induction cs generalizing gs with
  | nil =>
    cases h
    simp
  | cons c cs ih =>
    cases gs with
    | nil => simp [readWord] at h
    | cons g gs =>
      simp only [readWord] at h
      split at h
      · have := ih h
        simp
        omega
      · simp at h

def takeDigits (gs : List Glyph) : List Char × List Glyph :=
  ((gs.takeWhile (digit? · |>.isSome)).filterMap digit?, gs.dropWhile (digit? · |>.isSome))

theorem take_digits_length (gs : List Glyph) : (takeDigits gs).2.length ≤ gs.length :=
  (List.dropWhile_sublist _).length_le

def readWhole : List Glyph → Except Stop (List Char × List Glyph)
  | [] => .error (.atEnd .invalidNumber)
  | g :: rest =>
    if g = .char '0' then
      if (takeDigits rest).1.isEmpty then .ok (['0'], rest)
      else .error (.at .invalidNumber rest)
    else if (digit? g).isSome then .ok (takeDigits (g :: rest))
    else .error ⟨.invalidNumber, g :: rest, 1⟩

theorem read_whole_length {gs rest : List Glyph} {ds : List Char}
    (h : readWhole gs = .ok (ds, rest)) : rest.length < gs.length := by
  cases gs with
  | nil => simp [readWhole] at h
  | cons g gs =>
    simp only [readWhole] at h
    split at h
    · split at h
      · cases h
        simp
      · simp at h
    · split at h
      · rename_i hd
        have hr := congrArg (fun x : Except Stop _ => x.toOption.map (·.2.length)) h
        simp only [Except.toOption, Option.map_some, Option.some.injEq] at hr
        rw [← hr]
        simp only [takeDigits, List.dropWhile_cons, hd, if_true, List.length_cons]
        have := (List.dropWhile_sublist (l := gs) (digit? · |>.isSome)).length_le
        omega
      · simp at h

def readFraction (gs : List Glyph) : Except Stop (List Char × List Glyph) :=
  match gs with
  | .char '.' :: rest =>
    if (takeDigits rest).1.isEmpty then .error (.at .invalidNumber rest) else .ok (takeDigits rest)
  | _ => .ok ([], gs)

theorem read_fraction_length {gs rest : List Glyph} {ds : List Char}
    (h : readFraction gs = .ok (ds, rest)) : rest.length ≤ gs.length := by
  unfold readFraction at h
  split at h
  · rename_i rest'
    split at h
    · simp at h
    · have hr := congrArg (fun x : Except Stop _ => x.toOption.map (·.2.length)) h
      simp only [Except.toOption, Option.map_some, Option.some.injEq] at hr
      have := take_digits_length rest'
      simp
      omega
  · cases h
    simp

def takeSign (gs : List Glyph) : Option Char × List Glyph :=
  match gs with
  | .char '+' :: rest => (some '+', rest)
  | .char '-' :: rest => (some '-', rest)
  | _ => (none, gs)

theorem take_sign_length (gs : List Glyph) : (takeSign gs).2.length ≤ gs.length := by
  unfold takeSign
  split <;> simp

def readExponentDigits (marker : Char) (gs : List Glyph) :
    Except Stop (Option Exponent × List Glyph) :=
  if (takeDigits (takeSign gs).2).1.isEmpty then
    .error (.at .invalidNumber (takeSign gs).2)
  else
    .ok (some ⟨marker, (takeSign gs).1, (takeDigits (takeSign gs).2).1⟩,
      (takeDigits (takeSign gs).2).2)

def readExponent (gs : List Glyph) : Except Stop (Option Exponent × List Glyph) :=
  match gs with
  | .char 'e' :: rest => readExponentDigits 'e' rest
  | .char 'E' :: rest => readExponentDigits 'E' rest
  | _ => .ok (none, gs)

theorem read_exponent_digits_length {m : Char} {gs rest : List Glyph} {e : Option Exponent}
    (h : readExponentDigits m gs = .ok (e, rest)) : rest.length ≤ gs.length := by
  unfold readExponentDigits at h
  split at h
  · simp at h
  · cases h
    exact Nat.le_trans (take_digits_length _) (take_sign_length _)

theorem read_exponent_length {gs rest : List Glyph} {e : Option Exponent}
    (h : readExponent gs = .ok (e, rest)) : rest.length ≤ gs.length := by
  unfold readExponent at h
  split at h
  · have := read_exponent_digits_length h
    simp
    omega
  · have := read_exponent_digits_length h
    simp
    omega
  · cases h
    simp

def readNumeral (negative : Bool) (gs : List Glyph) : Except Stop (Numeral × List Glyph) := do
  let (whole, gs) ← readWhole gs
  let (fraction, gs) ← readFraction gs
  let (exponent, gs) ← readExponent gs
  return (⟨negative, whole, fraction, exponent⟩, gs)

/-- A numeral that is read is that of its parts, read one after the other. -/
theorem read_numeral_parts {b : Bool} {gs rest : List Glyph} {n : Numeral}
    (h : readNumeral b gs = .ok (n, rest)) :
    ∃ gs₁ gs₂, readWhole gs = .ok (n.whole, gs₁) ∧ readFraction gs₁ = .ok (n.fraction, gs₂) ∧
      readExponent gs₂ = .ok (n.exponent, rest) := by
  unfold readNumeral at h
  cases hw : readWhole gs with
  | error s => simp [hw, bind, Except.bind] at h
  | ok w =>
    cases hf : readFraction w.2 with
    | error s => simp [hw, hf, bind, Except.bind] at h
    | ok f =>
      cases he : readExponent f.2 with
      | error s => simp [hw, hf, he, bind, Except.bind] at h
      | ok e =>
        simp only [hw, hf, he, bind, Except.bind, pure, Except.pure, Except.ok.injEq,
          Prod.mk.injEq] at h
        obtain ⟨rfl,rfl⟩ := h
        exact ⟨w.2,f.2,rfl,hf,he⟩

theorem read_numeral_length {b : Bool} {gs rest : List Glyph} {n : Numeral}
    (h : readNumeral b gs = .ok (n, rest)) : rest.length < gs.length := by
  obtain ⟨gs₁,gs₂,hw,hf,he⟩ := read_numeral_parts h
  have hwhole := read_whole_length hw
  have hfraction := read_fraction_length hf
  have hexponent := read_exponent_length he
  omega

end ComplianceIntake.Json
