import ComplianceIntake.Json.Lexeme

/-!
# JSON trees

A tree is a JSON value whose strings and numerals keep their spelling. Its
lexemes, in order, are the whole text up to the blanks between them, so the
text without such blanks is their concatenation.
-/

set_option autoImplicit false

namespace ComplianceIntake.Json

open ComplianceIntake.Text
open ComplianceIntake.Number

inductive Tree where
  | null
  | bool (b : Bool)
  | number (n : Numeral)
  | string (l : Literal)
  | list (items : List Tree)
  | object (members : List (Literal × Tree))
  deriving Repr

def word (cs : List Char) : List Glyph := cs.map .char

def wordChars : Bool → List Char
  | true => ['t', 'r', 'u', 'e']
  | false => ['f', 'a', 'l', 's', 'e']

def nullChars : List Char := ['n', 'u', 'l', 'l']

mutual

def Tree.lexemes : Tree → List (List Glyph)
  | .null => [word nullChars]
  | .bool b => [word (wordChars b)]
  | .number n => [word n.chars]
  | .string l => [l.glyphs]
  | .list items => word ['['] :: (itemLexemes items ++ [word [']']])
  | .object members => word ['{'] :: (memberLexemes members ++ [word ['}']])

def itemLexemes : List Tree → List (List Glyph)
  | [] => []
  | [t] => t.lexemes
  | t :: u :: ts => t.lexemes ++ word [','] :: itemLexemes (u :: ts)

def memberLexemes : List (Literal × Tree) → List (List Glyph)
  | [] => []
  | [(k, t)] => k.glyphs :: word [':'] :: t.lexemes
  | (k, t) :: m :: ms =>
    k.glyphs :: word [':'] :: (t.lexemes ++ word [','] :: memberLexemes (m :: ms))

end

def Tree.glyphs (t : Tree) : List Glyph := t.lexemes.flatten

/-- The compact text of a tree; strays, which no tree made from texts holds, are left out. -/
def Tree.text (t : Tree) : String := String.ofList (t.glyphs.filterMap Glyph.char?)

end ComplianceIntake.Json
