import ComplianceIntake.Json.Record
import ComplianceIntake.Spec.Canonical
import ComplianceIntake.Text.Blank

/-!
# Compliance events

What a reporting controller says: a cluster did or did not comply with a
policy, which may belong to a parent policy. Texts are kept as they were sent;
what counts is their trimmed form, and a blank text counts as absent where a
hash, a specification or a display name is wanted.
-/

set_option autoImplicit false

namespace ComplianceIntake.Event

open ComplianceIntake.Text

inductive Compliance where
  | compliant
  | nonCompliant
  | disabled
  | pending
  deriving DecidableEq, Repr

structure Cluster where
  identifier : String := ""
  name : Option String := none
  deriving DecidableEq, Repr

structure ParentPolicy where
  name : String := ""
  space : String := ""
  categories : List String := []
  controls : List String := []
  standards : List String := []
  deriving DecidableEq, Repr

structure Policy where
  name : String := ""
  space : String := ""
  spec : Option String := none
  specHash : Option String := none
  deriving DecidableEq, Repr

structure Details where
  compliance : Option Compliance := none
  message : Option String := none
  timestamp : Option String := none
  metadata : Option Json.Value := none
  reportedBy : Option String := none
  deriving BEq, Repr

structure ComplianceEvent where
  cluster : Cluster := {}
  parentPolicy : Option ParentPolicy := none
  policy : Policy := {}
  details : Details := {}
  deriving BEq, Repr

def Compliance.text : Compliance → String
  | .compliant => "Compliant"
  | .nonCompliant => "NonCompliant"
  | .disabled => "Disabled"
  | .pending => "Pending"

def Compliance.ofText? (s : String) : Option Compliance :=
  [.compliant, .nonCompliant, .disabled, .pending].find? (·.text = s)

def Cluster.displayName (c : Cluster) : Option String := c.name.bind supplied?

namespace Policy

/-- The specification as sent, unless it is blank. -/
def specText (p : Policy) : Option String := p.spec.filter fun s => (supplied? s).isSome

def suppliedHash (p : Policy) : Option String := p.specHash.bind supplied?

/-- The hash that identifies the specification: the supplied one, else that of the text. -/
def identifyingHash (p : Policy) : Except Spec.Malformed (Option String) :=
  match p.suppliedHash, p.specText with
  | some h, _ => .ok (some h)
  | none, some spec => (Spec.hash spec).map some
  | none, none => .ok none

/-- With the trimmed or computed hash in place; unchanged when neither hash nor text is there. -/
def fillHash (p : Policy) : Except Spec.Malformed Policy :=
  p.identifyingHash.map fun
    | some h => { p with specHash := some h }
    | none => p

end Policy

def ComplianceEvent.withoutSpec (e : ComplianceEvent) : ComplianceEvent :=
  { e with policy := { e.policy with spec := none } }

end ComplianceIntake.Event
