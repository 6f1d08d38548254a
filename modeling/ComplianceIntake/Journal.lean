import ComplianceIntake.Store.Call

/-!
# The journal

What the service notes while it works: the log lines and the facts that the
metrics count.
-/

set_option autoImplicit false

namespace ComplianceIntake.Journal

open ComplianceIntake.Event
open ComplianceIntake.Store

inductive Level where
  | debug
  | info
  | warn
  | error
  deriving DecidableEq, Repr

def Level.label : Level → String
  | .debug => "DEBUG"
  | .info => "INFO"
  | .warn => "WARN"
  | .error => "ERROR"

inductive BodyFault where
  | tooLong
  | broken (detail : String)
  deriving DecidableEq, Repr

def BodyFault.message : BodyFault → String
  | .tooLong => "Failed to buffer the request body: length limit exceeded"
  | .broken detail => "Failed to buffer the request body: " ++ detail

inductive Result where
  | created
  | rejected
  | failed
  deriving DecidableEq, Repr

def Result.label : Result → String
  | .created => "created"
  | .rejected => "rejected"
  | .failed => "failed"

structure Span where
  requestId : String
  clusterId : Option String := none
  policyName : Option String := none
  eventId : Option Int := none
  result : Result
  deriving DecidableEq, Repr

inductive Entry where
  | identityResolved (kind : Kind) (id : Int)
  | identityFailed (kind : Kind) (error : StoreError)
  | bodyUnreadable (fault : BodyFault)
  | insertFailed (error : StoreError)
  | eventRecorded (eventId clusterId policyId : Int)
  | requestEnded (span : Span)
  | listening (address : String)
  | stopped (address : String)
  | shutdownTimedOut (address : String)
  | serverFailed (error : String)
  deriving DecidableEq, Repr

inductive FieldValue where
  | text (s : String)
  | number (i : Int)
  deriving DecidableEq, Repr

abbrev Fields := List (String × FieldValue)

/-- A log line as it is written: an event with its level, or a span that has ended. -/
inductive Line where
  | event (level : Level) (message : String) (fields : Fields)
  | span (name : String) (fields : Fields)
  deriving DecidableEq, Repr

def Span.fields (s : Span) : Fields :=
  [("request_id", .text s.requestId)]
    ++ (s.clusterId.map fun c => ("cluster_id", FieldValue.text c)).toList
    ++ (s.policyName.map fun p => ("policy_name", FieldValue.text p)).toList
    ++ (s.eventId.map fun i => ("event_id", FieldValue.number i)).toList
    ++ [("outcome", .text s.result.label)]

def Entry.line : Entry → Line
  | .identityResolved kind id =>
    .event .debug "identity resolved from store"
      [("kind", .text kind.label), ("surrogate_key", .number id)]
  | .identityFailed kind error =>
    .event .error "error getting foreign key"
      [("kind", .text kind.label), ("error", .text error.message)]
  | .bodyUnreadable fault =>
    .event .warn "error reading request body" [("error", .text fault.message)]
  | .insertFailed error =>
    .event .error "error inserting compliance event" [("error", .text error.message)]
  | .eventRecorded eventId clusterId policyId =>
    .event .info "compliance event recorded"
      [("event_id", .number eventId), ("cluster_key", .number clusterId),
        ("policy_key", .number policyId)]
  | .requestEnded span => .span "compliance_event.ingest" span.fields
  | .listening address =>
    .event .info "compliance events api listening" [("bind_addr", .text address)]
  | .stopped address =>
    .event .info "compliance events api stopped" [("bind_addr", .text address)]
  | .shutdownTimedOut address =>
    .event .warn "graceful shutdown timed out; server task aborted" [("bind_addr", .text address)]
  | .serverFailed error =>
    .event .error "compliance events api server task failed" [("error", .text error)]

inductive Note where
  | cacheLookup (kind : Kind) (hit : Bool)
  | getOrCreate (kind : Kind) (ok : Bool)
  | request (route method : String) (status : Nat)
  | log (entry : Entry)
  deriving DecidableEq, Repr

def lines (notes : List Note) : List Line :=
  notes.filterMap fun
    | .log entry => some entry.line
    | _ => none

end ComplianceIntake.Journal
