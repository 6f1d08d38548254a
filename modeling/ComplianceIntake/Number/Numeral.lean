/-!
# Decimal numerals

A numeral is a number as it is spelled: every spelling is kept digit by digit,
so that printing a numeral gives back the very text it was read from.
-/

set_option autoImplicit false

namespace ComplianceIntake.Number

def isDigit (c : Char) : Bool := '0'.toNat ≤ c.toNat && c.toNat ≤ '9'.toNat

def digitValue (c : Char) : Nat := c.toNat - '0'.toNat

def hexValue? (c : Char) : Option Nat :=
  if isDigit c then some (digitValue c)
  else if 'a' ≤ c ∧ c ≤ 'f' then some (c.toNat - 'a'.toNat + 10)
  else if 'A' ≤ c ∧ c ≤ 'F' then some (c.toNat - 'A'.toNat + 10)
  else none

def ofDigits (ds : List Char) : Nat := ds.foldl (fun n d => 10 * n + digitValue d) 0

def toDigits (n : Nat) : List Char := Nat.toDigits 10 n

def twoTo (n : Nat) : Nat := Nat.pow 2 n

def tenTo (n : Nat) : Nat := Nat.pow 10 n

structure Exponent where
  marker : Char
  sign : Option Char
  digits : List Char
  deriving DecidableEq, Repr

structure Numeral where
  negative : Bool
  whole : List Char
  fraction : List Char
  exponent : Option Exponent
  deriving DecidableEq, Repr

namespace Exponent

def chars (e : Exponent) : List Char := e.marker :: (e.sign.toList ++ e.digits)

def value (e : Exponent) : Int :=
  if e.sign = some '-' then -(ofDigits e.digits : Int) else ofDigits e.digits

end Exponent

namespace Numeral

def fractionChars (n : Numeral) : List Char :=
  if n.fraction.isEmpty then [] else '.' :: n.fraction

def exponentChars (n : Numeral) : List Char :=
  match n.exponent with
  | some e => e.chars
  | none => []

def chars (n : Numeral) : List Char :=
  (if n.negative then ['-'] else []) ++ n.whole ++ n.fractionChars ++ n.exponentChars

def ofInt (i : Int) : Numeral :=
  { negative := decide (i < 0), whole := toDigits i.natAbs, fraction := [], exponent := none }

end Numeral

end ComplianceIntake.Number
