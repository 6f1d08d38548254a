import ComplianceIntake.Event.Wire

/-!
# Receipts

What is answered for a recorded event: the surrogate ids of its row and of
the rows it refers to, and the event. In JSON the ids and the event's own
members stand side by side in one object. A receipt is read more strictly than
an event: members that are not declared have to be understood as well.
-/

set_option autoImplicit false

namespace ComplianceIntake.Event

open ComplianceIntake.Json

structure Receipt where
  eventId : Int
  clusterId : Int
  parentPolicyId : Option Int
  policyId : Int
  event : ComplianceEvent
  deriving BEq, Repr

namespace Receipt

def fields : List String :=
  ["eventId", "clusterId", "parentPolicyId", "policyId"] ++ ComplianceEvent.fields

def tree (r : Receipt) : Tree :=
  .object ([member "eventId" (.ofInt r.eventId), member "clusterId" (.ofInt r.clusterId)]
    ++ optionalMember "parentPolicyId" r.parentPolicyId .ofInt
    ++ [member "policyId" (.ofInt r.policyId)]
    ++ r.event.members)

def id? (t : Tree) : Option Int :=
  t.integer?.filter fun i => -(Number.twoTo 63 : Nat) ≤ i && i < (Number.twoTo 63 : Nat)

def ofMembers? (members : List (Literal × Tree)) : Option Receipt := do
  let _ ← Value.ofPlainTree? nestingLimit (.object members)
  let r ← Record.ofObject? fields members
  return {
    eventId := ← r.required "eventId" id?
    clusterId := ← r.required "clusterId" id?
    parentPolicyId := ← r.optional "parentPolicyId" id?
    policyId := ← r.required "policyId" id?
    event := ← ComplianceEvent.ofRecord? Compliance.nullOrEmpty r }

def ofTree? : Tree → Option Receipt
  | .object members => ofMembers? members
  | _ => none

def read? (octets : List UInt8) : Option Receipt := (readTree? octets).bind ofTree?

end Receipt

end ComplianceIntake.Event
