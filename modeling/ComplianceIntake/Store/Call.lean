import ComplianceIntake.Event.Key
import ComplianceIntake.Network.Url

/-!
# What a store is asked

The service needs four things of a store: to get or create the row of a
natural key, to find a specification by its hash, to insert an event, and to
say that it is there. Getting or creating is one atomic call: callers that
race for a key rely on the store to give all of them the same row.
-/

set_option autoImplicit false

namespace ComplianceIntake.Store

open ComplianceIntake.Event
open ComplianceIntake.Network

inductive DatabaseFault where
  | configuration (fault : UrlFault)
  | unreachable (detail : String)
  | poolClosed
  | migration (fault : DatabaseFault)
  deriving DecidableEq, Repr

def DatabaseFault.message : DatabaseFault → String
  | .configuration fault => "error with configuration: " ++ fault.message
  | .unreachable detail => "error communicating with database: " ++ detail
  | .poolClosed => "attempted to acquire a connection on a closed pool"
  | .migration fault => "while executing migrations: " ++ fault.message

inductive StoreError where
  | timeout
  | database (fault : DatabaseFault)
  | unavailable (reason : String)
  deriving DecidableEq, Repr

namespace StoreError

def message : StoreError → String
  | .timeout => "store operation timed out"
  | .database fault => "store sql error: " ++ fault.message
  | .unavailable reason => "store unavailable: " ++ reason

def source : StoreError → Option String
  | .database fault => some fault.message
  | _ => none

end StoreError

/-- What to create when a key has no row yet: the key and the attributes that are not in it. -/
inductive Draft where
  | cluster (key : ClusterKey) (name : Option String)
  | parentPolicy (key : ParentPolicyKey)
  | policy (key : PolicyKey) (spec : String)
  deriving DecidableEq, Repr

def Draft.key : Draft → NaturalKey
  | .cluster key _ => .cluster key
  | .parentPolicy key => .parentPolicy key
  | .policy key _ => .policy key

structure EventRecord where
  clusterId : Int
  parentPolicyId : Option Int
  policyId : Int
  details : Details
  deriving BEq, Repr

inductive Call where
  | getOrCreate (draft : Draft)
  | specByHash (hash : String)
  | insertEvent (record : EventRecord)
  | ping

abbrev Call.Answer : Call → Type
  | .getOrCreate _ => Int
  | .specByHash _ => Option String
  | .insertEvent _ => Int
  | .ping => Unit

/-- Any of the rows that have a hash may answer for it; a choice is made by the store alone. -/
structure SpecChoice where
  pick : String → List String → String
  pick_mem : ∀ spec specs, pick spec specs ∈ spec :: specs

def SpecChoice.first : SpecChoice := ⟨fun spec _ => spec, by simp⟩

def SpecChoice.pick? (choice : SpecChoice) : List String → Option String
  | [] => none
  | spec :: specs => some (choice.pick spec specs)

theorem SpecChoice.pick?_mem (choice : SpecChoice) (specs : List String) (spec : String)
    (h : choice.pick? specs = some spec) : spec ∈ specs := by
  cases specs with
  | nil => simp [pick?] at h
  | cons s ss =>
    simp only [pick?, Option.some.injEq] at h
    exact h ▸ choice.pick_mem s ss

class Backend (σ : Type) where
  /-- Whether a caller waits for its turn before the call takes effect. -/
  waits : σ → Bool
  answer : SpecChoice → (c : Call) → σ → Except StoreError c.Answer × σ

end ComplianceIntake.Store
