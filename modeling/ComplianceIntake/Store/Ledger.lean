import ComplianceIntake.Store.Call

/-!
# The ledger

The store in memory: a table for each kind of record and one for events, with
ids from a single counter, and counts of the calls that reached it. A ledger
that is marked unavailable fails every call and changes nothing. Rows are kept
in the order of insertion and never leave; of an existing row only a cluster's
display name can change.
-/

set_option autoImplicit false

namespace ComplianceIntake.Store

open ComplianceIntake.Event

structure ClusterRow where
  key : ClusterKey
  id : Int
  name : Option String
  deriving DecidableEq, Repr

structure ParentPolicyRow where
  key : ParentPolicyKey
  id : Int
  deriving DecidableEq, Repr

structure PolicyRow where
  key : PolicyKey
  id : Int
  spec : String
  deriving DecidableEq, Repr

structure EventRow where
  id : Int
  record : EventRecord
  deriving BEq, Repr

structure Tables where
  /-- The last id that was handed out. Fewer than `2 ^ 63 - 1` rows are assumed, so that ids do not
  run out. -/
  lastId : Int := 0
  clusters : List ClusterRow := []
  parentPolicies : List ParentPolicyRow := []
  policies : List PolicyRow := []
  events : List EventRow := []
  deriving BEq, Repr

namespace Tables

def cluster? (t : Tables) (key : ClusterKey) : Option ClusterRow :=
  t.clusters.find? (·.key = key)

def parentPolicy? (t : Tables) (key : ParentPolicyKey) : Option ParentPolicyRow :=
  t.parentPolicies.find? (·.key = key)

def policy? (t : Tables) (key : PolicyKey) : Option PolicyRow :=
  t.policies.find? (·.key = key)

def id? (t : Tables) : NaturalKey → Option Int
  | .cluster key => (t.cluster? key).map (·.id)
  | .parentPolicy key => (t.parentPolicy? key).map (·.id)
  | .policy key => (t.policy? key).map (·.id)

def clusterName? (t : Tables) (key : ClusterKey) : Option String :=
  (t.cluster? key).bind (·.name)

/-- A name that is supplied replaces the recorded one. -/
def rename (key : ClusterKey) (name : Option String) (row : ClusterRow) : ClusterRow :=
  if row.key = key then { row with name := name.or row.name } else row

def create (t : Tables) : Draft → Tables
  | .cluster key name =>
    { t with lastId := t.lastId + 1, clusters := t.clusters ++ [⟨key, t.lastId + 1, name⟩] }
  | .parentPolicy key =>
    { t with lastId := t.lastId + 1, parentPolicies := t.parentPolicies ++ [⟨key, t.lastId + 1⟩] }
  | .policy key spec =>
    { t with lastId := t.lastId + 1, policies := t.policies ++ [⟨key, t.lastId + 1, spec⟩] }

def update (t : Tables) : Draft → Tables
  | .cluster key name => { t with clusters := t.clusters.map (rename key name) }
  | _ => t

def getOrCreate (t : Tables) (draft : Draft) : Int × Tables :=
  match t.id? draft.key with
  | some id => (id, t.update draft)
  | none => (t.lastId + 1, t.create draft)

def specsOf (t : Tables) (hash : String) : List String :=
  (t.policies.filter (·.key.specHash = hash)).map (·.spec)

def insertEvent (t : Tables) (record : EventRecord) : Int × Tables :=
  (t.lastId + 1,
    { t with lastId := t.lastId + 1, events := t.events ++ [⟨t.lastId + 1, record⟩] })

end Tables

structure Ledger where
  tables : Tables := {}
  getOrCreateCalls : Nat := 0
  specLookups : Nat := 0
  available : Bool := true
  deriving BEq, Repr

namespace Ledger

def unavailable : StoreError := .unavailable "memory store marked unavailable"

def serve (l : Ledger) (choice : SpecChoice) : (c : Call) → c.Answer × Ledger
  | .getOrCreate draft =>
    ((l.tables.getOrCreate draft).1,
      { l with
        tables := (l.tables.getOrCreate draft).2
        getOrCreateCalls := l.getOrCreateCalls + 1 })
  | .specByHash hash =>
    (choice.pick? (l.tables.specsOf hash), { l with specLookups := l.specLookups + 1 })
  | .insertEvent record =>
    ((l.tables.insertEvent record).1, { l with tables := (l.tables.insertEvent record).2 })
  | .ping => ((), l)

def answer (choice : SpecChoice) (c : Call) (l : Ledger) : Except StoreError c.Answer × Ledger :=
  if l.available then (.ok (l.serve choice c).1, (l.serve choice c).2)
  else (.error unavailable, l)

instance : Backend Ledger where
  waits _ := true
  answer := answer

theorem answer_of_unavailable (choice : SpecChoice) (c : Call) (l : Ledger)
    (h : l.available = false) : l.answer choice c = (.error unavailable, l) := by
  simp [answer, h]

theorem answer_of_available (choice : SpecChoice) (c : Call) (l : Ledger)
    (h : l.available = true) :
    l.answer choice c = (.ok (l.serve choice c).1, (l.serve choice c).2) := by
  simp [answer, h]

end Ledger

end ComplianceIntake.Store
