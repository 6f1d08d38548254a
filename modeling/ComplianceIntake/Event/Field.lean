/-!
# Fields of a compliance event

The fields that an error can name.
-/

set_option autoImplicit false

namespace ComplianceIntake.Event

inductive Field where
  | clusterIdentifier
  | clusterName
  | parentName
  | parentSpace
  | parentCategories
  | parentControls
  | parentStandards
  | policyName
  | policySpace
  | policySpec
  | policyHash
  | policySpecOrHash
  | eventMessage
  | eventTimestamp
  | eventMetadata
  | eventReportedBy
  deriving DecidableEq, Repr

def Field.path : Field → String
  | .clusterIdentifier => "cluster.identifier"
  | .clusterName => "cluster.name"
  | .parentName => "parentPolicy.name"
  | .parentSpace => "parentPolicy.namespace"
  | .parentCategories => "parentPolicy.categories"
  | .parentControls => "parentPolicy.controls"
  | .parentStandards => "parentPolicy.standards"
  | .policyName => "policy.name"
  | .policySpace => "policy.namespace"
  | .policySpec => "policy.spec"
  | .policyHash => "policy.specHash"
  | .policySpecOrHash => "policy.spec or policy.specHash"
  | .eventMessage => "event.message"
  | .eventTimestamp => "event.timestamp"
  | .eventMetadata => "event.metadata"
  | .eventReportedBy => "event.reportedBy"

end ComplianceIntake.Event
