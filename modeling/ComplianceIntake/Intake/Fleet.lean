import ComplianceIntake.Intake.Route
import ComplianceIntake.Store.Ledger

/-!
# Replicas over one store

Replicas of the service share a store; each has a cache of its own. A plan is
carried out at one replica: it sees that replica's cache and the shared store.
A run is a list of moves, each of which posts a body to one replica or switches
the ledger's availability. Plans can also take turns, one call to the store
for each in every round.
-/

set_option autoImplicit false

namespace ComplianceIntake.Intake

open ComplianceIntake.Store
open ComplianceIntake.Identity
open ComplianceIntake.Journal

structure Fleet (σ : Type) where
  store : σ
  caches : Nat → Cache

namespace Fleet

variable {σ α : Type}

def new (store : σ) : Fleet σ := ⟨store, fun _ => {}⟩

def site (f : Fleet σ) (replica : Nat) : Site σ := ⟨f.caches replica, f.store⟩

def setCache (f : Fleet σ) (replica : Nat) (c : Cache) : Fleet σ :=
  { f with caches := fun i => if i = replica then c else f.caches i }

def setSite (f : Fleet σ) (replica : Nat) (s : Site σ) : Fleet σ :=
  { f.setCache replica s.cache with store := s.store }

variable [Backend σ]

structure Effect (σ α : Type) where
  value : α
  fleet : Fleet σ
  notes : List Note

def carryOut (f : Fleet σ) (choice : SpecChoice) (replica : Nat) (p : Plan Note α) : Effect σ α :=
  let o := p.run choice (f.site replica)
  ⟨o.value, f.setSite replica o.site, o.notes⟩

structure Task (α : Type) where
  replica : Nat
  plan : Plan Note α

def advance (f : Fleet σ) (choice : SpecChoice) (t : Task α) : Effect σ (Task α) :=
  let o := t.plan.advance choice (f.site t.replica)
  ⟨{ t with plan := o.value }, f.setSite t.replica o.site, o.notes⟩

def turn (f : Fleet σ) (choice : SpecChoice) (t : Task α) : Effect σ (Task α) :=
  let o := t.plan.turn choice (f.site t.replica)
  ⟨{ t with plan := o.value }, f.setSite t.replica o.site, o.notes⟩

def each (act : Fleet σ → Task α → Effect σ (Task α)) (f : Fleet σ) :
    List (Task α) → Effect σ (List (Task α))
  | [] => ⟨[], f, []⟩
  | t :: ts =>
    let e := act f t
    let es := each act e.fleet ts
    ⟨e.value :: es.value, es.fleet, e.notes ++ es.notes⟩

def start (f : Fleet σ) (choice : SpecChoice) (ts : List (Task α)) : Effect σ (List (Task α)) :=
  each (fun f t => f.advance choice t) f ts

def round (f : Fleet σ) (choice : SpecChoice) (ts : List (Task α)) : Effect σ (List (Task α)) :=
  each (fun f t => f.turn choice t) f ts

end Fleet

/-- A request posted to a replica, with what the surroundings supply. -/
structure Posting where
  replica : Nat
  body : List UInt8
  moment : Moment
  choice : SpecChoice := .first
  headers : List (String × List UInt8) := []
  /-- Why the stream of the body broke off after `body`, if it did. -/
  broken : Option String := none

inductive Move where
  | post (p : Posting)
  | setAvailable (on : Bool)

abbrev Reply := Posting × Verdict

def Posting.request (p : Posting) : Request :=
  { headers := p.headers, body := p.body, broken := p.broken }

def Posting.plan (p : Posting) : Plan Note Verdict := ingest p.moment p.request

def Fleet.setAvailable (f : Fleet Ledger) (on : Bool) : Fleet Ledger :=
  { f with store := { f.store with available := on } }

def Fleet.post (f : Fleet Ledger) (p : Posting) : Fleet.Effect Ledger Verdict :=
  f.carryOut p.choice p.replica p.plan

structure Run where
  fleet : Fleet Ledger := .new {}
  replies : List Reply := []
  notes : List Note := []

namespace Run

def move (r : Run) : Move → Run
  | .post p =>
    let e := r.fleet.post p
    ⟨e.fleet, r.replies ++ [(p, e.value)], r.notes ++ e.notes⟩
  | .setAvailable on => { r with fleet := r.fleet.setAvailable on }

def moves (r : Run) (ms : List Move) : Run := ms.foldl move r

theorem moves_append (r : Run) (ms ms' : List Move) :
    r.moves (ms ++ ms') = (r.moves ms).moves ms' :=
  List.foldl_append

end Run

end ComplianceIntake.Intake
