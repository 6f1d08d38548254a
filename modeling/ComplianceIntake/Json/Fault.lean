import ComplianceIntake.Text.Glyph

/-!
# Where reading JSON stops

A reader that cannot go on reports the reason, the glyphs it had left, and how
many octets of those it counts as read. From these follow the line and the
column of the fault: the column is the number of octets after the last line
feed, the offending octet included when the reader had already met it.
-/

set_option autoImplicit false

namespace ComplianceIntake.Json

open ComplianceIntake.Text

inductive Reason where
  | endOfValue
  | endOfString
  | endOfList
  | endOfObject
  | expectedValue
  | expectedIdent
  | expectedColon
  | expectedListEnd
  | expectedObjectEnd
  | invalidNumber
  | invalidEscape
  | controlCharacter
  | keyMustBeString
  | trailingCharacters
  deriving DecidableEq, Repr

def Reason.text : Reason → String
  | .endOfValue => "EOF while parsing a value"
  | .endOfString => "EOF while parsing a string"
  | .endOfList => "EOF while parsing a list"
  | .endOfObject => "EOF while parsing an object"
  | .expectedValue => "expected value"
  | .expectedIdent => "expected ident"
  | .expectedColon => "expected `:`"
  | .expectedListEnd => "expected `,` or `]`"
  | .expectedObjectEnd => "expected `,` or `\x7d`"
  | .invalidNumber => "invalid number"
  | .invalidEscape => "invalid escape"
  | .controlCharacter => "control character (\\u0000-\\u001F) found while parsing a string"
  | .keyMustBeString => "key must be a string"
  | .trailingCharacters => "trailing characters"

/-- A reader's stop: what it had left, and how many octets of that count as read. -/
structure Stop where
  reason : Reason
  rest : List Glyph
  taken : Nat
  deriving DecidableEq, Repr

def Stop.at (reason : Reason) (rest : List Glyph) : Stop :=
  ⟨reason, rest, if rest.isEmpty then 0 else 1⟩

def Stop.atEnd (reason : Reason) : Stop := ⟨reason, [], 0⟩

structure Fault where
  reason : Reason
  line : Nat
  column : Nat
  deriving DecidableEq, Repr

namespace Fault

def locate (line column : Nat) : Nat → List Glyph → Nat × Nat
  | 0, _ => (line, column)
  | _ + 1, [] => (line, column)
  | n + 1, g :: rest =>
    if g = .char '\n' then locate (line + 1) 0 n rest
    else locate line (column + min g.width (n + 1)) (n + 1 - g.width) rest

def ofStop (text : List Glyph) (s : Stop) : Fault :=
  let read := Glyph.totalWidth text - Glyph.totalWidth s.rest + s.taken
  let place := locate 1 0 read text
  ⟨s.reason, place.1, place.2⟩

def message (f : Fault) : String :=
  f.reason.text ++ " at line " ++ toString f.line ++ " column " ++ toString f.column

end Fault

end ComplianceIntake.Json
