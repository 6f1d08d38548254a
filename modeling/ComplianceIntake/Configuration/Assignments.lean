import ComplianceIntake.Configuration.Fault
import ComplianceIntake.Text.Blank

/-!
# Assignments of settings

Keys with values, as the environment and a configuration file give them; of
several assignments to one key the last counts. A file has one assignment a
line, `KEY=VALUE` with blanks wherever one likes, and comment lines that start
with `#`. A value in a pair of quotes is what stands between them.
-/

set_option autoImplicit false

namespace ComplianceIntake.Configuration

open ComplianceIntake.Text

abbrev Assignments := List (String × String)

namespace Assignments

def value? (kv : Assignments) (key : String) : Option String :=
  (List.find? (fun e : String × String => e.1 = key) kv.reverse).map (·.2)

theorem value?_append (a b : Assignments) (key : String) :
    value? (a ++ b) key = (value? b key).or (value? a key) := by
  simp only [value?, List.reverse_append, List.find?_append]
  cases List.find? (fun e : String × String => decide (e.1 = key)) b.reverse <;> simp

end Assignments

def consLine (c : Char) (lines : List (List Char)) : List (List Char) :=
  if c = '\n' then [] :: lines
  else
    match lines with
    | line :: lines => (c :: line) :: lines
    | [] => [[c]]

def splitLines (cs : List Char) : List (List Char) := cs.foldr consLine [[]]

def isQuote (c : Char) : Bool := c = '"' || c = '\x27'

/-- Without a pair of equal quotes around it. -/
def unquote (cs : List Char) : List Char :=
  match cs with
  | q :: rest => if isQuote q && rest.getLast? = some q then rest.dropLast else cs
  | [] => []

inductive LineForm where
  | nothing
  | assignment (key value : String)
  | withoutEquals
  | withoutKey
  deriving DecidableEq, Repr

def assignmentOf (beforeEquals fromEquals : List Char) : LineForm :=
  match fromEquals with
  | [] => .withoutEquals
  | _ :: value =>
    if (trimChars beforeEquals).isEmpty then .withoutKey
    else
      .assignment (String.ofList (trimChars beforeEquals))
        (String.ofList (unquote (trimChars value)))

def readLine (line : List Char) : LineForm :=
  let cs := trimChars line
  if cs.isEmpty || cs.head? = some '#' then .nothing
  else assignmentOf (cs.takeWhile (· ≠ '=')) (cs.dropWhile (· ≠ '='))

def readLines (number : Nat) : List (List Char) → Except Fault Assignments
  | [] => .ok []
  | line :: lines =>
    match readLine line with
    | .nothing => readLines (number + 1) lines
    | .assignment key value => (readLines (number + 1) lines).map ((key, value) :: ·)
    | .withoutEquals => .error (.lineWithoutEquals number)
    | .withoutKey => .error (.lineWithoutKey number)

def readFile (text : String) : Except Fault Assignments := readLines 1 (splitLines text.toList)

end ComplianceIntake.Configuration
