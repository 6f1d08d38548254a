import ComplianceIntake.Identity.Plan
import ComplianceIntake.Journal

/-!
# Resolving records to surrogate ids

All kinds of records are resolved alike: derive the natural key, answer from
the cache when it has the key, else ask the store to get or create the row and
remember its id. A policy that comes with its hash alone takes the text of a
specification from any policy that has this hash. Who first uses a key is
settled by the store's atomic call, never by a lock here.
-/

set_option autoImplicit false

namespace ComplianceIntake.Identity

open ComplianceIntake.Event
open ComplianceIntake.Store
open ComplianceIntake.Journal

inductive ResolveError where
  /-- The record has no natural key, or its specification is not JSON. -/
  | unusable (fault : KeyFault)
  /-- No policy has the hash that stands for the specification. -/
  | unknownSpec (hash : String)
  | store (error : StoreError)
  deriving DecidableEq, Repr

namespace ResolveError

def message : ResolveError → String
  | .unusable fault => fault.message
  | .unknownSpec _ =>
    "could not determine the spec from the provided spec hash; the spec is required in the request"
  | .store error => error.message

/-- Whether the caller can mend this by changing the request. -/
def isClientError : ResolveError → Bool
  | .store _ => false
  | _ => true

def source : ResolveError → Option String
  | .unusable (.malformed spec) => some spec.message
  | .store error => some error.message
  | _ => none

end ResolveError

abbrev Steps (α : Type) := Plan Note (Except ResolveError α)

def isOk {ε α : Type} : Except ε α → Bool
  | .ok _ => true
  | .error _ => false

def askStore (call : Call) : Steps call.Answer :=
  (Plan.ask call).bind fun answer => .done (answer.mapError .store)

def settleMiss (key : NaturalKey) (attempt : Except ResolveError Int) : Steps Int :=
  .note (.getOrCreate key.kind (isOk attempt)) <|
    match attempt with
    | .error e => .done (.error e)
    | .ok id =>
      .note (.log (.identityResolved key.kind id)) <|
        .act (.remember key id) fun _ => .done (.ok id)

def identify (key : NaturalKey) (fetch : Steps Int) : Steps Int :=
  .act (.consult key) fun
    | some id => .note (.cacheLookup key.kind true) (.done (.ok id))
    | none => .note (.cacheLookup key.kind false) (fetch.bind (settleMiss key))

/-- The specification to store with a policy: its own, as sent, or one with the same hash. -/
def specFor (p : Policy) (hash : String) : Steps String :=
  match p.specText with
  | some spec =>
    match Spec.canonical spec with
    | .ok _ => .done (.ok spec)
    | .error malformed => .done (.error (.unusable (.malformed malformed)))
  | none =>
    (askStore (.specByHash hash)).andThen fun
      | some spec => .done (.ok spec)
      | none => .done (.error (.unknownSpec hash))

def resolveKeyed {κ : Type} (key : Except KeyFault κ) (natural : κ → NaturalKey)
    (fetch : κ → Steps Int) : Steps Int :=
  match key with
  | .error fault => .done (.error (.unusable fault))
  | .ok k => identify (natural k) (fetch k)

def resolveCluster (c : Cluster) : Steps Int :=
  resolveKeyed c.key .cluster fun key => askStore (.getOrCreate (.cluster key c.displayName))

def resolveParentPolicy (p : ParentPolicy) : Steps Int :=
  resolveKeyed p.key .parentPolicy fun key => askStore (.getOrCreate (.parentPolicy key))

def resolvePolicy (p : Policy) : Steps Int :=
  resolveKeyed p.key .policy fun key =>
    (specFor p key.specHash).andThen fun spec => askStore (.getOrCreate (.policy key spec))

inductive Entity where
  | cluster (c : Cluster)
  | parentPolicy (p : ParentPolicy)
  | policy (p : Policy)
  deriving DecidableEq, Repr

namespace Entity

def kind : Entity → Kind
  | .cluster _ => .cluster
  | .parentPolicy _ => .parentPolicy
  | .policy _ => .policy

def key : Entity → Except KeyFault NaturalKey
  | .cluster c => c.key.map .cluster
  | .parentPolicy p => p.key.map .parentPolicy
  | .policy p => p.key.map .policy

def resolve : Entity → Steps Int
  | .cluster c => resolveCluster c
  | .parentPolicy p => resolveParentPolicy p
  | .policy p => resolvePolicy p

end Entity

end ComplianceIntake.Identity
