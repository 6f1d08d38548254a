import ComplianceIntake.Number.Numeral

/-!
# Shortest decimal text of a double

A double is `m · 2 ^ q`, and the reals that round to it form an interval
around it, its ends included when `m` is even. Its shortest decimal is the
first grid of `n` significant digits, `n = 1, 2, …`, with a point in that
interval; of two such points the nearer is taken. Which of two equally near
points wins, where the point stands and when an exponent is written is left to
a `Layout`.
-/

set_option autoImplicit false

namespace ComplianceIntake.Number

structure Dyadic where
  significand : Nat
  scale : Int
  deriving DecidableEq, Repr

def isNegative (bits : UInt64) : Bool := decide (twoTo 63 ≤ bits.toNat)

def Dyadic.ofBits (bits : UInt64) : Dyadic :=
  let field : Nat := bits.toNat / twoTo 52 % twoTo 11
  let low : Nat := bits.toNat % twoTo 52
  if field = 0 then ⟨low, -1074⟩ else ⟨low + twoTo 52, (field : Int) - 1075⟩

structure Decimal where
  coefficient : Nat
  exponent : Int
  deriving DecidableEq, Repr

inductive Tie where
  | toEven
  | up
  deriving DecidableEq, Repr

def Tie.keepsLower (tie : Tie) (lower : Nat) : Bool :=
  match tie with
  | .toEven => decide (lower % 2 = 0)
  | .up => false

namespace Dyadic

/-- Four times the magnitude as a fraction of natural numbers, so that the ends of the
rounding interval are whole multiples of the same unit. -/
def quarters (d : Dyadic) : Nat × Nat :=
  (twoTo (d.scale - 2).toNat, twoTo (2 - d.scale).toNat)

/-- Distance to the lower end of the rounding interval, in quarters of a unit: the next double
below a power of two is nearer than the one above it. -/
def reachBelow (d : Dyadic) : Nat :=
  if d.significand = twoTo 52 ∧ -1074 < d.scale then 1 else 2

def leadingZeros (num den : Nat) : Nat → Nat
  | 0 => 0
  | fuel + 1 => if den ≤ num * 10 then 0 else leadingZeros (num * 10) den fuel + 1

def point (d : Dyadic) : Int :=
  let num := 4 * d.significand * d.quarters.1
  let den := d.quarters.2
  if den ≤ num then ((toDigits (num / den)).length : Int)
  else -(leadingZeros num den 400 : Int)

def onGrid? (d : Dyadic) (tie : Tie) (exponent : Int) : Option Decimal :=
  let up := d.quarters.1 * tenTo (-exponent).toNat
  let down := d.quarters.2 * tenTo exponent.toNat
  let value := 4 * d.significand * up
  let least := (4 * d.significand - d.reachBelow) * up
  let greatest := (4 * d.significand + 2) * up
  let closed := d.significand % 2 = 0
  let inside := fun c : Nat =>
    if closed then decide (least ≤ c * down ∧ c * down ≤ greatest)
    else decide (least < c * down ∧ c * down < greatest)
  let floor := value / down
  let twice := 2 * (value - floor * down)
  let lowerNearer := twice < down ∨ twice = down ∧ tie.keepsLower floor
  if inside floor ∧ (lowerNearer ∨ ¬ inside (floor + 1)) then some ⟨floor, exponent⟩
  else if inside (floor + 1) then some ⟨floor + 1, exponent⟩
  else none

def shortest (d : Dyadic) (tie : Tie) : Decimal :=
  if d.significand = 0 then ⟨0, 0⟩
  else
    let found := (List.range 17).findSome? fun n => d.onGrid? tie (d.point - (n + 1 : Nat))
    found.getD ⟨d.significand, 0⟩

end Dyadic

def Decimal.digits (d : Decimal) : List Char :=
  let kept := ((toDigits d.coefficient).reverse.dropWhile (· = '0')).reverse
  if kept.isEmpty then ['0'] else kept

def Decimal.point (d : Decimal) : Int :=
  if d.coefficient = 0 then 1 else ((toDigits d.coefficient).length : Int) + d.exponent

/-- How a written double looks: how ties go, for which positions of the point it is written
without an exponent, and whether a whole number ends in `.0`. -/
structure Layout where
  tie : Tie
  positional : Int → Bool
  wholeWithPoint : Bool

namespace Layout

def scientific (digits : List Char) (point : Int) (negative : Bool) : Numeral :=
  let power := point - 1
  { negative := negative
    whole := digits.take 1
    fraction := digits.drop 1
    exponent := some ⟨'e', some (if power < 0 then '-' else '+'), toDigits power.natAbs⟩ }

def plain (l : Layout) (digits : List Char) (point : Int) (negative : Bool) : Numeral :=
  if point ≤ 0 then
    { negative := negative
      whole := ['0']
      fraction := List.replicate (-point).toNat '0' ++ digits
      exponent := none }
  else if digits.length ≤ point.toNat then
    { negative := negative
      whole := digits ++ List.replicate (point.toNat - digits.length) '0'
      fraction := if l.wholeWithPoint then ['0'] else []
      exponent := none }
  else
    { negative := negative
      whole := digits.take point.toNat
      fraction := digits.drop point.toNat
      exponent := none }

def numeral (l : Layout) (bits : UInt64) : Numeral :=
  let d := (Dyadic.ofBits bits).shortest l.tie
  if l.positional d.point then l.plain d.digits d.point (isNegative bits)
  else scientific d.digits d.point (isNegative bits)

end Layout

end ComplianceIntake.Number
