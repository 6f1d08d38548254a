import ComplianceIntake.Text.Order

/-!
# Glyphs

Octets that arrive from outside need not be UTF-8. A glyph is a character of
such a text, or a stray octet that belongs to no well-formed character. Every
text is read as glyphs; one that came as a string has no stray.
-/

set_option autoImplicit false

namespace ComplianceIntake.Text

inductive Glyph where
  | char (c : Char)
  | stray (octet : UInt8)
  deriving DecidableEq, Repr

namespace Glyph

def width : Glyph → Nat
  | .char c => c.utf8Size
  | .stray _ => 1

def char? : Glyph → Option Char
  | .char c => some c
  | .stray _ => none

def ofString (s : String) : List Glyph := s.toList.map .char

def totalWidth (gs : List Glyph) : Nat := gs.foldl (fun n g => n + g.width) 0

def continuation? (o : UInt8) : Option Nat :=
  if 0x80 ≤ o.toNat ∧ o.toNat < 0xC0 then some (o.toNat - 0x80) else none

def scalar? (least n : Nat) : Option Char :=
  if h : n.isValidChar then
    if least ≤ n then some ⟨n.toUInt32, by
      have : n < UInt32.size := by
        rcases h with h | h
        · exact Nat.lt_trans h (by decide)
        · exact Nat.lt_trans h.2 (by decide)
      simpa [UInt32.isValidChar, Nat.mod_eq_of_lt this] using h⟩ else none
  else none

def lead? (a : UInt8) (rest : List UInt8) : Option (Char × Nat) :=
  if a.toNat < 0x80 then (scalar? 0 a.toNat).map (·, 0)
  else if a.toNat < 0xC0 then none
  else if a.toNat < 0xE0 then
    match rest with
    | b :: _ => do
      let x ← continuation? b
      (scalar? 0x80 ((a.toNat - 0xC0) * 0x40 + x)).map (·, 1)
    | _ => none
  else if a.toNat < 0xF0 then
    match rest with
    | b :: c :: _ => do
      let x ← continuation? b
      let y ← continuation? c
      (scalar? 0x800 (((a.toNat - 0xE0) * 0x40 + x) * 0x40 + y)).map (·, 2)
    | _ => none
  else if a.toNat < 0xF8 then
    match rest with
    | b :: c :: d :: _ => do
      let x ← continuation? b
      let y ← continuation? c
      let z ← continuation? d
      (scalar? 0x10000 ((((a.toNat - 0xF0) * 0x40 + x) * 0x40 + y) * 0x40 + z)).map (·, 3)
    | _ => none
  else none

/-- Reads octets from the left; an octet that starts no character is a stray. -/
def readOctets (done : List Glyph) : List UInt8 → List Glyph
  | [] => done.reverse
  | a :: rest =>
    match lead? a rest with
    | some (c, more) => readOctets (.char c :: done) (rest.drop more)
    | none => readOctets (.stray a :: done) rest
  termination_by os => os.length
  decreasing_by
    all_goals
      simp only [List.length_cons, List.length_drop]
      omega

def ofOctets (os : List UInt8) : List Glyph := readOctets [] os

end Glyph

end ComplianceIntake.Text
