import ComplianceIntake.Number.Shortest

/-!
# Numbers in JSON values

A numeral without fraction and exponent that fits sixty-four bits is kept as
an integer; minus zero has no integer form. Every other numeral becomes a
double by a quick method: as many leading digits as fit sixty-four bits are
taken, and the result is scaled once by the nearest double to a power of ten,
which may miss the nearest double to the written number by a little. A number
beyond the largest double is refused. Doubles are kept by their IEEE 754 bits.
-/

set_option autoImplicit false

namespace ComplianceIntake.Json

open ComplianceIntake.Number

inductive Number where
  | integer (i : Int)
  | double (bits : UInt64)
  deriving DecidableEq, Repr

def largestSignificand : Nat := twoTo 64 - 1

/-- Appends digits to a significand while it stays within sixty-four bits; gives back the rest. -/
def takeSignificant (significand : Nat) : List Char → Nat × List Char
  | [] => (significand, [])
  | d :: ds =>
    let next := 10 * significand + digitValue d
    if next ≤ largestSignificand then takeSignificant next ds else (significand, d :: ds)

def largestExponent : Nat := twoTo 31 - 1

def clampExponent (e : Int) : Int := max (-(twoTo 31 : Nat)) (min (largestExponent : Nat) e)

def powerOfTen (n : Nat) : Float := Float.ofScientific 1 false n

def largestPower : Nat := 308

def scale? (f : Float) (exponent : Int) : Option Float :=
  if exponent.natAbs ≤ largestPower then
    if 0 ≤ exponent then
      let scaled := f * powerOfTen exponent.toNat
      if scaled.isInf then none else some scaled
    else some (f / powerOfTen exponent.natAbs)
  else if f == 0 then some f
  else if 0 ≤ exponent then none
  else scale? (f / powerOfTen largestPower) (exponent + largestPower)
  termination_by exponent.natAbs
  decreasing_by
    simp only [largestPower] at *
    omega

namespace Number

def ofFloat (negative : Bool) (f : Float) : Number :=
  .double (if negative then -f else f).toBits

def ofSignificand (negative : Bool) (n : Nat) : Number :=
  if negative then
    if n = 0 ∨ twoTo 63 < n then ofFloat true n.toUInt64.toFloat else .integer (-(n : Int))
  else .integer n

def ofScaled? (negative : Bool) (significand : Nat) (exponent : Int) : Option Number :=
  (scale? significand.toUInt64.toFloat exponent).map (ofFloat negative)

/-- The exponent that is left when `before` whole digits were dropped and `after` digits of the
fraction were taken. -/
def ofParts? (negative : Bool) (significand before after : Nat) (e : Option Exponent) :
    Option Number :=
  let start : Int := (before : Int) - after
  match e with
  | none => ofScaled? negative significand start
  | some e =>
    if largestExponent < ofDigits e.digits then
      if significand ≠ 0 ∧ 0 ≤ e.value then none else some (ofFloat negative 0)
    else ofScaled? negative significand (clampExponent (start + e.value))

def ofNumeral? (n : Numeral) : Option Number :=
  let whole := takeSignificant 0 n.whole
  if n.fraction.isEmpty ∧ n.exponent.isNone ∧ whole.2.isEmpty then
    some (ofSignificand n.negative whole.1)
  else
    let fraction := takeSignificant whole.1 n.fraction
    ofParts? n.negative fraction.1 whole.2.length (n.fraction.length - fraction.2.length) n.exponent

def layout : Layout where
  tie := .toEven
  positional point := decide (-5 < point ∧ point ≤ 16)
  wholeWithPoint := true

def numeral : Number → Numeral
  | .integer i => .ofInt i
  | .double bits => layout.numeral bits

end Number

end ComplianceIntake.Json
