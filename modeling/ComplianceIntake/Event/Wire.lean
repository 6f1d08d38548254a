import ComplianceIntake.Event.Entity

/-!
# Events in JSON

Every field of an event may be missing. Texts of clusters and policies are
empty and label lists have no labels where they are missing, and on writing
empty label lists and absent values are left out. Only an event's metadata is
a value of arbitrary shape; it may use what the containers around it leave of
the nesting limit.
-/

set_option autoImplicit false

namespace ComplianceIntake.Event

open ComplianceIntake.Json

namespace Compliance

/-- What may stand beside the name when a value of this type is written as an object. -/
abbrev UnitForm := Tree → Bool

def nullOnly : UnitForm
  | .null => true
  | _ => false

def nullOrEmpty : UnitForm
  | .null => true
  | .object [] => true
  | _ => false

def ofTree? (unit : UnitForm) : Tree → Option Compliance
  | .string l => l.string?.bind ofText?
  | .object [(k, t)] => if unit t then k.string?.bind ofText? else none
  | _ => none

def tree (c : Compliance) : Tree := .ofString c.text

end Compliance

namespace Cluster

def fields : List String := ["identifier", "name"]

def ofTree? (t : Tree) : Option Cluster := do
  let r ← Record.ofTree? fields t
  return {
    identifier := ← r.field "identifier" "" Tree.string?
    name := ← r.optional "name" Tree.string? }

def tree (c : Cluster) : Tree :=
  .object (member "identifier" (.ofString c.identifier) :: optionalMember "name" c.name .ofString)

end Cluster

namespace ParentPolicy

def fields : List String := ["name", "namespace", "categories", "controls", "standards"]

def ofTree? (t : Tree) : Option ParentPolicy := do
  let r ← Record.ofTree? fields t
  return {
    name := ← r.field "name" "" Tree.string?
    space := ← r.field "namespace" "" Tree.string?
    categories := ← r.field "categories" [] Tree.strings?
    controls := ← r.field "controls" [] Tree.strings?
    standards := ← r.field "standards" [] Tree.strings? }

def tree (p : ParentPolicy) : Tree :=
  .object ([member "name" (.ofString p.name), member "namespace" (.ofString p.space)]
    ++ stringsMember "categories" p.categories
    ++ stringsMember "controls" p.controls
    ++ stringsMember "standards" p.standards)

end ParentPolicy

namespace Policy

def fields : List String := ["name", "namespace", "spec", "specHash"]

def ofTree? (t : Tree) : Option Policy := do
  let r ← Record.ofTree? fields t
  return {
    name := ← r.field "name" "" Tree.string?
    space := ← r.field "namespace" "" Tree.string?
    spec := ← r.optional "spec" Tree.string?
    specHash := ← r.optional "specHash" Tree.string? }

def tree (p : Policy) : Tree :=
  .object ([member "name" (.ofString p.name), member "namespace" (.ofString p.space)]
    ++ optionalMember "spec" p.spec .ofString
    ++ optionalMember "specHash" p.specHash .ofString)

end Policy

namespace Details

def fields : List String := ["compliance", "message", "timestamp", "metadata", "reportedBy"]

/-- `room` is how many containers the metadata may open inside each other. -/
def ofTree? (unit : Compliance.UnitForm) (room : Nat) (t : Tree) : Option Details := do
  let r ← Record.ofTree? fields t
  return {
    compliance := ← r.optional "compliance" (Compliance.ofTree? unit)
    message := ← r.optional "message" Tree.string?
    timestamp := ← r.optional "timestamp" Tree.string?
    metadata := ← r.optional "metadata" (Value.ofTree? room)
    reportedBy := ← r.optional "reportedBy" Tree.string? }

def tree (d : Details) : Tree :=
  .object (optionalMember "compliance" d.compliance Compliance.tree
    ++ optionalMember "message" d.message .ofString
    ++ optionalMember "timestamp" d.timestamp .ofString
    ++ optionalMember "metadata" d.metadata Value.tree
    ++ optionalMember "reportedBy" d.reportedBy .ofString)

def read? (octets : List UInt8) : Option Details :=
  (readTree? octets).bind (ofTree? Compliance.nullOnly (nestingLimit - 1))

end Details

namespace ComplianceEvent

def fields : List String := ["cluster", "parentPolicy", "policy", "event"]

def ofRecord? (unit : Compliance.UnitForm) (r : Record) : Option ComplianceEvent := do
  return {
    cluster := ← r.field "cluster" {} Cluster.ofTree?
    parentPolicy := ← r.optional "parentPolicy" ParentPolicy.ofTree?
    policy := ← r.field "policy" {} Policy.ofTree?
    details := ← r.field "event" {} (Details.ofTree? unit (nestingLimit - 2)) }

def ofTree? (t : Tree) : Option ComplianceEvent :=
  (Record.ofTree? fields t).bind (ofRecord? Compliance.nullOnly)

def members (e : ComplianceEvent) : List Member :=
  [member "cluster" e.cluster.tree]
    ++ optionalMember "parentPolicy" e.parentPolicy ParentPolicy.tree
    ++ [member "policy" e.policy.tree, member "event" e.details.tree]

def tree (e : ComplianceEvent) : Tree := .object e.members

def read? (octets : List UInt8) : Option ComplianceEvent := (readTree? octets).bind ofTree?

end ComplianceEvent

end ComplianceIntake.Event
