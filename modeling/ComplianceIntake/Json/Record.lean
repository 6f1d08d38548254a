import ComplianceIntake.Json.Value

/-!
# Records in JSON

A record with declared fields is written as an object, or as a list of its
fields in their declared order, of which the last may be missing. A declared
field may occur once; members that are not declared are ignored, and only
their keys have to be understood.
-/

set_option autoImplicit false

namespace ComplianceIntake.Json

open ComplianceIntake.Text

abbrev Record := List (String × Tree)

def keyedMembers? : List (Literal × Tree) → Option Record
  | [] => some []
  | (k, t) :: ms => do
    let k ← k.string?
    let rest ← keyedMembers? ms
    return (k, t) :: rest

namespace Record

def unrepeated (names : List String) (r : Record) : Bool :=
  names.all fun n => r.countP (·.1 = n) ≤ 1

def ofObject? (names : List String) (members : List (Literal × Tree)) : Option Record :=
  (keyedMembers? members).filter (unrepeated names)

def ofTree? (names : List String) : Tree → Option Record
  | .list items => if items.length ≤ names.length then some (names.zip items) else none
  | .object members => ofObject? names members
  | _ => none

def get? (r : Record) (name : String) : Option Tree := r.lookup name

def field {α : Type} (r : Record) (name : String) (default : α) (decode : Tree → Option α) :
    Option α :=
  match r.get? name with
  | none => some default
  | some t => decode t

def optional {α : Type} (r : Record) (name : String) (decode : Tree → Option α) :
    Option (Option α) :=
  match r.get? name with
  | none => some none
  | some .null => some none
  | some t => (decode t).map some

def required {α : Type} (r : Record) (name : String) (decode : Tree → Option α) : Option α :=
  (r.get? name).bind decode

end Record

def Tree.string? : Tree → Option String
  | .string l => l.string?
  | _ => none

def Tree.strings? : Tree → Option (List String)
  | .list items => items.mapM Tree.string?
  | _ => none

def Tree.integer? : Tree → Option Int
  | .number n =>
    match Number.ofNumeral? n with
    | some (.integer i) => some i
    | _ => none
  | _ => none

def Tree.ofString (s : String) : Tree := .string (.ofString s)

def Tree.ofStrings (ss : List String) : Tree := .list (ss.map .ofString)

def Tree.ofInt (i : Int) : Tree := .number (.ofInt i)

abbrev Member := Literal × Tree

def member (name : String) (t : Tree) : Member := (.ofString name, t)

def optionalMember {α : Type} (name : String) (v : Option α) (tree : α → Tree) : List Member :=
  match v with
  | none => []
  | some v => [member name (tree v)]

def stringsMember (name : String) (ss : List String) : List Member :=
  if ss.isEmpty then [] else [member name (.ofStrings ss)]

def readTree? (octets : List UInt8) : Option Tree := (read (Glyph.ofOctets octets)).toOption

end ComplianceIntake.Json
