import ComplianceIntake.Json.Quoted
import ComplianceIntake.Json.Number
import ComplianceIntake.Json.Reader

/-!
# JSON values

A value is what a tree means: strings and numbers are understood and the
members of an object are sorted by key, the last of equal keys winning. The
trees that are read for their meaning may open only so many containers inside
each other. An object whose first key is `embeddedKey` stands for a value that
is embedded as text: it has no other member, and that member is a string which
holds the text of the value.
-/

set_option autoImplicit false

namespace ComplianceIntake.Json

open ComplianceIntake.Text

inductive Value where
  | null
  | bool (b : Bool)
  | number (n : Number)
  | string (s : String)
  | list (items : List Value)
  | object (members : List (String × Value))
  deriving BEq, Repr

def nestingLimit : Nat := 127

def keepLast : List (String × Value) → List (String × Value)
  | [] => []
  | [m] => [m]
  | m :: m' :: rest => if m.1 = m'.1 then keepLast (m' :: rest) else m :: keepLast (m' :: rest)

def sortMembers (members : List (String × Value)) : List (String × Value) :=
  keepLast (members.mergeSort fun m m' => atMost m.1 m'.1)

def embeddedKey : String := "$serde_json::private::RawValue"

def embeddedText? : List (Literal × Tree) → Option (Option String)
  | [] => none
  | (k, t) :: rest =>
    if k.string? = some embeddedKey then
      match rest, t with
      | [], .string l => some l.string?
      | _, _ => some none
    else none

/-- What a reader makes of embedded texts: nothing special, or the value that this gives. -/
abbrev Embedding := Option (String → Option Value)

mutual

/-- The meaning of a tree that may open `room` containers inside each other. -/
def Value.ofTreeWith? (embedding : Embedding) (room : Nat) : Tree → Option Value
  | .null => some .null
  | .bool b => some (.bool b)
  | .number n => (Number.ofNumeral? n).map .number
  | .string l => l.string?.map .string
  | .list items =>
    match room with
    | 0 => none
    | room + 1 => (valuesOf? embedding room items).map .list
  | .object members =>
    match room with
    | 0 => none
    | room + 1 =>
      match embedding, embeddedText? members with
      | some value?, some text => text.bind value?
      | _, _ => (membersOf? embedding room members).map fun ms => .object (sortMembers ms)

def valuesOf? (embedding : Embedding) (room : Nat) : List Tree → Option (List Value)
  | [] => some []
  | t :: ts => do
    let v ← Value.ofTreeWith? embedding room t
    let vs ← valuesOf? embedding room ts
    return v :: vs

def membersOf? (embedding : Embedding) (room : Nat) :
    List (Literal × Tree) → Option (List (String × Value))
  | [] => some []
  | (k, t) :: ms => do
    let k ← k.string?
    let v ← Value.ofTreeWith? embedding room t
    let vs ← membersOf? embedding room ms
    return (k, v) :: vs

end

def embeddedValue? : Nat → String → Option Value
  | 0, _ => none
  | layers + 1, text =>
    match read (Glyph.ofString text) with
    | .ok t => Value.ofTreeWith? (some (embeddedValue? layers)) nestingLimit t
    | .error _ => none

/-- An embedded text is shorter than the one around it, so its length bounds the layers. -/
def Value.ofTree? (room : Nat) (t : Tree) : Option Value :=
  Value.ofTreeWith? (some fun text => embeddedValue? (text.length + 1) text) room t

def Value.ofPlainTree? (room : Nat) (t : Tree) : Option Value := Value.ofTreeWith? none room t

mutual

def Value.tree : Value → Tree
  | .null => .null
  | .bool b => .bool b
  | .number n => .number n.numeral
  | .string s => .string (.ofString s)
  | .list items => .list (valueTrees items)
  | .object members => .object (memberTrees members)

def valueTrees : List Value → List Tree
  | [] => []
  | v :: vs => v.tree :: valueTrees vs

def memberTrees : List (String × Value) → List (Literal × Tree)
  | [] => []
  | (k, v) :: ms => (.ofString k, v.tree) :: memberTrees ms

end

namespace Value

mutual

def anyChar (p : Char → Bool) : Value → Bool
  | .string s => s.toList.any p
  | .list items => anyCharIn p items
  | .object members => anyCharInMembers p members
  | _ => false

def anyCharIn (p : Char → Bool) : List Value → Bool
  | [] => false
  | v :: vs => v.anyChar p || anyCharIn p vs

def anyCharInMembers (p : Char → Bool) : List (String × Value) → Bool
  | [] => false
  | (k, v) :: ms => k.toList.any p || v.anyChar p || anyCharInMembers p ms

end

def isObject : Value → Bool
  | .object _ => true
  | _ => false

end Value

end ComplianceIntake.Json
