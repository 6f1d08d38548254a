import ComplianceIntake.Intake.Fleet

/-!
# Requests in flight

Any number of requests may be in flight at the replicas of one store. In a
turn a request arrives, or one of those in flight takes its next action, or is
dropped where it stands, or the store's availability is switched. A request
keeps the actions it took and what they were answered. Inserting the event and
answering are one action, since the plan has nothing left to do then.
-/

set_option autoImplicit false

namespace ComplianceIntake.Identity

structure Taken where
  action : Action
  answer : action.Answer

namespace Plan

variable {ν α σ : Type} [Store.Backend σ]

def taken? (choice : Store.SpecChoice) : Plan ν α → Site σ → Option Taken
  | .act action _, s => some ⟨action, (action.perform choice s).1⟩
  | _, _ => none

/-- The plan can take these actions, so answered, and stand at the other plan then. -/
inductive Follows : Plan ν α → List Taken → Plan ν α → Prop
  | stop (p : Plan ν α) : Follows p [] p
  | note {n : ν} {rest q : Plan ν α} {ts : List Taken} (h : Follows rest ts q) :
      Follows (.note n rest) ts q
  | act {action : Action} {next : action.Answer → Plan ν α} {q : Plan ν α} {ts : List Taken}
      (answer : action.Answer) (h : Follows (next answer) ts q) :
      Follows (.act action next) (⟨action, answer⟩ :: ts) q

end Plan

/-- Somewhere among these actions the record is resolved to the id. -/
def Entity.ResolvedIn (entity : Entity) (ts : List Taken) (id : Int) : Prop :=
  ∃ during, during <:+: ts ∧ entity.resolve.Follows during (.done (.ok id))

end ComplianceIntake.Identity

namespace ComplianceIntake.Intake

open ComplianceIntake.Event
open ComplianceIntake.Store
open ComplianceIntake.Identity
open ComplianceIntake.Journal

structure Exchange where
  posting : Posting
  plan : Plan Note Verdict
  taken : List Taken := []
  dropped : Bool := false

namespace Exchange

def ofPosting (p : Posting) : Exchange := { posting := p, plan := p.plan.settle.1 }

def verdict? (x : Exchange) : Option Verdict := x.plan.value?

def receipt? (x : Exchange) : Option Receipt := x.verdict?.bind Except.toOption

/-- Only a request that has no answer yet can be dropped. -/
def drop (x : Exchange) : Exchange :=
  if x.verdict?.isSome then x else { x with dropped := true }

def step (x : Exchange) (s : Site Ledger) : Exchange :=
  { x with
    plan := (x.plan.step x.posting.choice s).value
    taken := x.taken ++ (x.plan.taken? x.posting.choice s).toList }

def Resolved (x : Exchange) (entity : Entity) (id : Int) : Prop := entity.ResolvedIn x.taken id

end Exchange

inductive Turn where
  | arrive (p : Posting)
  | step (i : Nat)
  | drop (i : Nat)
  | setAvailable (on : Bool)

/-- The replicas, their store, and every request so far in the order of arrival. -/
structure Traffic where
  fleet : Fleet Ledger := .new {}
  exchanges : List Exchange := []

namespace Traffic

def tables (t : Traffic) : Tables := t.fleet.store.tables

def advance (t : Traffic) (i : Nat) (x : Exchange) : Traffic :=
  let s := t.fleet.site x.posting.replica
  { fleet := t.fleet.setSite x.posting.replica (x.plan.step x.posting.choice s).site
    exchanges := t.exchanges.set i (x.step s) }

def turn (t : Traffic) : Turn → Traffic
  | .arrive p => { t with exchanges := t.exchanges ++ [.ofPosting p] }
  | .step i =>
    match t.exchanges[i]? with
    | some x => if x.dropped then t else t.advance i x
    | none => t
  | .drop i =>
    match t.exchanges[i]? with
    | some x => { t with exchanges := t.exchanges.set i x.drop }
    | none => t
  | .setAvailable on => { t with fleet := t.fleet.setAvailable on }

def turns (t : Traffic) (ts : List Turn) : Traffic := ts.foldl turn t

end Traffic

end ComplianceIntake.Intake
