import ComplianceIntake.Number.Numeral

/-!
# Timestamps

The date-times of RFC 3339: a calendar date, a time of day whose second may be
sixty, an optional fraction of a second, and an offset from UTC of less than a
day. A blank may stand for the `T`, and the letters may be lower case.
-/

set_option autoImplicit false

namespace ComplianceIntake.Event

open ComplianceIntake.Number

structure Timestamp where
  year : Nat
  month : Nat
  day : Nat
  hour : Nat
  minute : Nat
  second : Nat
  fraction : List Char
  /-- Minutes east of UTC. -/
  offset : Int
  deriving DecidableEq, Repr

namespace Timestamp

def isLeapYear (year : Nat) : Bool :=
  year % 4 = 0 && (year % 100 ≠ 0 || year % 400 = 0)

def daysInMonth (year month : Nat) : Nat :=
  if month = 2 then if isLeapYear year then 29 else 28
  else if month ∈ [4, 6, 9, 11] then 30
  else 31

def isReal (t : Timestamp) : Bool :=
  1 ≤ t.month && t.month ≤ 12 && 1 ≤ t.day && t.day ≤ daysInMonth t.year t.month
    && t.hour ≤ 23 && t.minute ≤ 59 && t.second ≤ 60

def takeNumber (width : Nat) (cs : List Char) : Option (Nat × List Char) :=
  let ds := cs.take width
  if ds.length = width ∧ ds.all isDigit then
    some (ofDigits ds, cs.drop width)
  else none

def takeOneOf (allowed : List Char) : List Char → Option (Char × List Char)
  | c :: cs => if allowed.contains c then some (c, cs) else none
  | [] => none

def takeFraction (cs : List Char) : Option (List Char × List Char) :=
  match cs with
  | '.' :: rest =>
    if (rest.takeWhile isDigit).isEmpty then none
    else some (rest.takeWhile isDigit, rest.dropWhile isDigit)
  | _ => some ([], cs)

def minusSign : Char := '\u2212'

def readOffset (cs : List Char) : Option Int := do
  let (sign, cs) ← takeOneOf ['Z', 'z', '+', '-', minusSign] cs
  if sign = 'Z' ∨ sign = 'z' then
    if cs.isEmpty then some 0 else none
  else
    let (hours, cs) ← takeNumber 2 cs
    let (_, cs) ← takeOneOf [':'] cs
    let (minutes, cs) ← takeNumber 2 cs
    if cs.isEmpty ∧ hours ≤ 23 ∧ minutes ≤ 59 then
      let offset : Int := 60 * hours + minutes
      some (if sign = '+' then offset else -offset)
    else none

def read? (text : String) : Option Timestamp := do
  let (year, cs) ← takeNumber 4 text.toList
  let (_, cs) ← takeOneOf ['-'] cs
  let (month, cs) ← takeNumber 2 cs
  let (_, cs) ← takeOneOf ['-'] cs
  let (day, cs) ← takeNumber 2 cs
  let (_, cs) ← takeOneOf ['T', 't', ' '] cs
  let (hour, cs) ← takeNumber 2 cs
  let (_, cs) ← takeOneOf [':'] cs
  let (minute, cs) ← takeNumber 2 cs
  let (_, cs) ← takeOneOf [':'] cs
  let (second, cs) ← takeNumber 2 cs
  let (fraction, cs) ← takeFraction cs
  let offset ← readOffset cs
  let t : Timestamp := ⟨year, month, day, hour, minute, second, fraction, offset⟩
  if t.isReal then some t else none

end Timestamp

end ComplianceIntake.Event
