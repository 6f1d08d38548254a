import ComplianceIntake.Event.Entity
import ComplianceIntake.Event.Field

/-!
# Natural keys

The trimmed texts that say which cluster, parent policy or policy is meant. A
parent policy's labels count as sets: blank labels are dropped and the others
are trimmed and listed once, in the order of texts. A policy is identified by
name, namespace and the hash of its specification.
-/

set_option autoImplicit false

namespace ComplianceIntake.Event

open ComplianceIntake.Text

structure ClusterKey where
  identifier : String
  deriving DecidableEq, Repr

structure ParentPolicyKey where
  name : String
  space : String
  categories : List String
  controls : List String
  standards : List String
  deriving DecidableEq, Repr

structure PolicyKey where
  name : String
  space : String
  specHash : String
  deriving DecidableEq, Repr

inductive Kind where
  | cluster
  | parentPolicy
  | policy
  deriving DecidableEq, Repr

def Kind.label : Kind → String
  | .cluster => "cluster"
  | .parentPolicy => "parent_policy"
  | .policy => "policy"

inductive NaturalKey where
  | cluster (key : ClusterKey)
  | parentPolicy (key : ParentPolicyKey)
  | policy (key : PolicyKey)
  deriving DecidableEq, Repr

def NaturalKey.kind : NaturalKey → Kind
  | .cluster _ => .cluster
  | .parentPolicy _ => .parentPolicy
  | .policy _ => .policy

inductive KeyFault where
  | missing (field : Field)
  | malformed (spec : Spec.Malformed)
  deriving DecidableEq, Repr

def KeyFault.message : KeyFault → String
  | .missing field => "required field not provided: " ++ field.path
  | .malformed spec => spec.message

def normalLabels (labels : List String) : List String := ascending (labels.filterMap supplied?)

theorem mem_normal_labels (s : String) (labels : List String) :
    s ∈ normalLabels labels ↔ ∃ l ∈ labels, supplied? l = some s := by
  simp [normalLabels, mem_ascending]

def require (field : Field) (text : String) : Except KeyFault String :=
  match supplied? text with
  | some t => .ok t
  | none => .error (.missing field)

def Cluster.naturalKey (c : Cluster) : ClusterKey := ⟨trim c.identifier⟩

def Cluster.key (c : Cluster) : Except KeyFault ClusterKey := do
  let _ ← require .clusterIdentifier c.identifier
  return c.naturalKey

def ParentPolicy.naturalKey (p : ParentPolicy) : ParentPolicyKey where
  name := trim p.name
  space := trim p.space
  categories := normalLabels p.categories
  controls := normalLabels p.controls
  standards := normalLabels p.standards

def ParentPolicy.key (p : ParentPolicy) : Except KeyFault ParentPolicyKey := do
  let _ ← require .parentName p.name
  let _ ← require .parentSpace p.space
  return p.naturalKey

def Policy.key (p : Policy) : Except KeyFault PolicyKey := do
  match p.identifyingHash with
  | .error spec => .error (.malformed spec)
  | .ok none => .error (.missing .policySpecOrHash)
  | .ok (some hash) =>
    let name ← require .policyName p.name
    let space ← require .policySpace p.space
    return ⟨name, space, hash⟩

end ComplianceIntake.Event
