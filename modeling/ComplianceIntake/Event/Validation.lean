import ComplianceIntake.Event.Key
import ComplianceIntake.Event.Timestamp

/-!
# Validation

Everything about an event that can be judged without the store. The rules are
tried in a fixed order and the first one that is broken is reported; only the
missing fields are reported together.
-/

set_option autoImplicit false

namespace ComplianceIntake.Event

open ComplianceIntake.Text

inductive Invalid where
  | missing (fields : List Field)
  | holdsNul (field : Field)
  | hashShape
  | specNotJson
  | hashMismatch
  | timestampShape
  | timestampYear
  | metadataShape
  deriving DecidableEq, Repr

def Invalid.message : Invalid → String
  | .missing fields => "required fields not provided: " ++ ", ".intercalate (fields.map Field.path)
  | .holdsNul field => field.path ++ " must not contain NUL characters"
  | .hashShape => "policy.specHash must be 40 lowercase hex characters"
  | .specNotJson => "policy.spec must be valid JSON"
  | .hashMismatch => "policy.specHash does not match the provided policy.spec"
  | .timestampShape => "event.timestamp must be an RFC3339 timestamp"
  | .timestampYear => "event.timestamp year must be 0001 or later"
  | .metadataShape => "event.metadata must be a JSON object"

def isNul (c : Char) : Bool := c = '\x00'

def holdsNul (s : String) : Bool := s.toList.any isNul

namespace ComplianceEvent

/-- The required fields, each with whether it is missing, in the order of the report. -/
def requirements (e : ComplianceEvent) : List (Field × Bool) :=
  let blank := fun s : String => (supplied? s).isNone
  [(.clusterIdentifier, blank e.cluster.identifier)]
    ++ (match e.parentPolicy with
      | some p => [(.parentName, blank p.name), (.parentSpace, blank p.space)]
      | none => [])
    ++ [(.policyName, blank e.policy.name), (.policySpace, blank e.policy.space),
      (.policySpecOrHash, e.policy.specText.isNone && e.policy.suppliedHash.isNone)]

def missingFields (e : ComplianceEvent) : List Field :=
  (e.requirements.filter (·.2)).map (·.1)

/-- Every field that holds text, with whether a NUL is in it, in the order of the search. -/
def nulFields (e : ComplianceEvent) : List (Field × Bool) :=
  let inOptional := fun s : Option String => s.any holdsNul
  let inLabels := fun labels : List String => labels.any holdsNul
  [(.clusterIdentifier, holdsNul e.cluster.identifier),
    (.clusterName, inOptional e.cluster.name),
    (.policyName, holdsNul e.policy.name),
    (.policySpace, holdsNul e.policy.space),
    (.policySpec, inOptional e.policy.spec),
    (.policyHash, inOptional e.policy.specHash),
    (.eventMessage, inOptional e.details.message),
    (.eventTimestamp, inOptional e.details.timestamp),
    (.eventReportedBy, inOptional e.details.reportedBy),
    (.eventMetadata, e.details.metadata.any (Json.Value.anyChar isNul))]
    ++ (match e.parentPolicy with
      | some p =>
        [(.parentName, holdsNul p.name),
          (.parentSpace, holdsNul p.space),
          (.parentCategories, inLabels p.categories),
          (.parentControls, inLabels p.controls),
          (.parentStandards, inLabels p.standards)]
      | none => [])

def checkMissing (e : ComplianceEvent) : Except Invalid Unit :=
  if e.missingFields.isEmpty then .ok () else .error (.missing e.missingFields)

def checkNul (e : ComplianceEvent) : Except Invalid Unit :=
  match e.nulFields.find? (·.2) with
  | some (field, _) => .error (.holdsNul field)
  | none => .ok ()

def checkHash (e : ComplianceEvent) : Except Invalid Unit :=
  match e.policy.suppliedHash with
  | some hash => if Spec.isHash hash then .ok () else .error .hashShape
  | none => .ok ()

def checkSpec (e : ComplianceEvent) : Except Invalid Unit :=
  match e.policy.specText with
  | none => .ok ()
  | some spec =>
    match Spec.hash spec with
    | .error _ => .error .specNotJson
    | .ok computed =>
      if e.policy.suppliedHash.all (· = computed) then .ok () else .error .hashMismatch

def checkTimestamp (e : ComplianceEvent) : Except Invalid Unit :=
  match e.details.timestamp with
  | none => .ok ()
  | some text =>
    match Timestamp.read? (trim text) with
    | none => .error .timestampShape
    | some t => if t.year < 1 then .error .timestampYear else .ok ()

def checkMetadata (e : ComplianceEvent) : Except Invalid Unit :=
  if e.details.metadata.all Json.Value.isObject then .ok () else .error .metadataShape

def validate (e : ComplianceEvent) : Except Invalid Unit := do
  e.checkMissing
  e.checkNul
  e.checkHash
  e.checkSpec
  e.checkTimestamp
  e.checkMetadata

end ComplianceEvent

end ComplianceIntake.Event
