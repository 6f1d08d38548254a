import ComplianceIntake.Event.Receipt
import ComplianceIntake.Event.Validation
import ComplianceIntake.Identity.Resolve
import ComplianceIntake.Intake.Request

/-!
# Ingesting an event

A body is read, understood and validated; then the hash of the specification
and the time of receipt are filled in, the cluster, the parent policy and the
policy are resolved in this order, and the event is inserted. The first thing
that fails decides the answer. Whatever the outcome, the request is counted
and its span is logged.
-/

set_option autoImplicit false

namespace ComplianceIntake.Intake

open ComplianceIntake.Event
open ComplianceIntake.Store
open ComplianceIntake.Identity
open ComplianceIntake.Journal

structure Moment where
  /-- The time of receipt, as text. -/
  now : String
  freshId : String
  deriving DecidableEq, Repr

inductive Refusal where
  | unreadable (fault : BodyFault)
  | malformed
  | invalid (reason : Invalid)
  | unhashable (spec : Spec.Malformed)
  | unresolved (error : ResolveError)
  | notRecorded (error : StoreError)
  deriving DecidableEq, Repr

namespace Refusal

def isFailure : Refusal → Bool
  | .unresolved error => !error.isClientError
  | .notRecorded _ => true
  | _ => false

def status (r : Refusal) : Nat := if r.isFailure then 500 else 400

def callerMessage : Refusal → String
  | .unreadable _ => "Could not read request body"
  | .malformed => "Incorrectly formatted request body, must be valid JSON"
  | .invalid reason => reason.message
  | .unhashable spec => spec.message
  | .unresolved error => error.message
  | .notRecorded error => error.message

def message (r : Refusal) : String :=
  if r.isFailure then "Internal Error" else r.callerMessage

end Refusal

abbrev Verdict := Except Refusal Receipt

def createdStatus : Nat := 201

def statusOf : Verdict → Nat
  | .ok _ => createdStatus
  | .error r => r.status

def resultOf : Verdict → Result
  | .ok _ => .created
  | .error r => if r.isFailure then .failed else .rejected

def responseOf : Verdict → Response
  | .ok receipt => .ofJson createdStatus receipt.tree
  | .error r => .ofMessage r.status r.message

def accept (body : List UInt8) : Except Refusal ComplianceEvent :=
  match ComplianceEvent.read? body with
  | none => .error .malformed
  | some e =>
    match e.validate with
    | .error reason => .error (.invalid reason)
    | .ok () => .ok e

/-- An event with its hash in place and, where no time was given, the time of receipt. -/
def complete (now : String) (e : ComplianceEvent) : Except Refusal ComplianceEvent :=
  match e.policy.fillHash with
  | .error spec => .error (.unhashable spec)
  | .ok policy =>
    .ok { e with
      policy := policy
      details := { e.details with timestamp := some (e.details.timestamp.getD now) } }

abbrev Stage (α : Type) := Plan Note (Except Refusal α)

/-- A resolution's error becomes a refusal; the log tells of the store's failures. -/
def refuseResolution (kind : Kind) : Except ResolveError Int → Stage Int
  | .ok id => .done (.ok id)
  | .error (.store error) =>
    .note (.log (.identityFailed kind error)) (.done (.error (.unresolved (.store error))))
  | .error error => .done (.error (.unresolved error))

def resolveFor (entity : Entity) : Stage Int :=
  entity.resolve.bind (refuseResolution entity.kind)

def resolveParent : Option ParentPolicy → Stage (Option Int)
  | none => .done (.ok none)
  | some p => (resolveFor (.parentPolicy p)).andThen fun id => .done (.ok (some id))

def insertEvent (record : EventRecord) : Stage Int :=
  .act (.ask (.insertEvent record)) fun
    | .ok id =>
      .note (.log (.eventRecorded id record.clusterId record.policyId)) (.done (.ok id))
    | .error error => .note (.log (.insertFailed error)) (.done (.error (.notRecorded error)))

def record (e : ComplianceEvent) : Stage Receipt :=
  (resolveFor (.cluster e.cluster)).andThen fun clusterId =>
  (resolveParent e.parentPolicy).andThen fun parentPolicyId =>
  (resolveFor (.policy e.policy)).andThen fun policyId =>
  (insertEvent ⟨clusterId, parentPolicyId, policyId, e.details⟩).andThen fun eventId =>
  .done (.ok ⟨eventId, clusterId, parentPolicyId, policyId, e.withoutSpec⟩)

def eventIdOf : Verdict → Option Int
  | .ok receipt => some receipt.eventId
  | .error _ => none

/-- Counts the request and logs its span; the span tells of the event once it has passed. -/
def conclude (requestId : String) (event : Option ComplianceEvent) (v : Verdict) :
    Plan Note Verdict :=
  .note (.request eventsPath "POST" (statusOf v)) <|
  .note (.log (.requestEnded
    { requestId := requestId
      clusterId := event.map (·.cluster.identifier)
      policyName := event.map (·.policy.name)
      eventId := eventIdOf v
      result := resultOf v })) <|
  .done v

def ingestBody (m : Moment) (requestId : String) (body : List UInt8) : Plan Note Verdict :=
  match accept body with
  | .error refusal => conclude requestId none (.error refusal)
  | .ok e =>
    match complete m.now e with
    | .error refusal => conclude requestId (some e) (.error refusal)
    | .ok completed => (record completed).bind (conclude requestId (some e))

def ingest (m : Moment) (r : Request) : Plan Note Verdict :=
  match r.readBody with
  | .error fault =>
    .note (.log (.bodyUnreadable fault))
      (conclude (r.id m.freshId) none (.error (.unreadable fault)))
  | .ok body => ingestBody m (r.id m.freshId) body

end ComplianceIntake.Intake
