import ComplianceIntake.Identity.Cache
import ComplianceIntake.Store.Call

/-!
# Plans

What a request does to the cache and the store, as a tree of atomic actions: a
plan is done, or makes a note, or takes an action and goes on with its answer.
A plan can be run to its end, or one action at a time while other plans take
theirs in between.
-/

set_option autoImplicit false

namespace ComplianceIntake.Identity

open ComplianceIntake.Event
open ComplianceIntake.Store

/-- The atomic actions on one cache and one store. -/
inductive Action where
  | consult (key : NaturalKey)
  | remember (key : NaturalKey) (id : Int)
  | ask (call : Call)

abbrev Action.Answer : Action → Type
  | .consult _ => Option Int
  | .remember _ _ => Unit
  | .ask call => Except StoreError call.Answer

inductive Plan (ν α : Type) : Type where
  | done (value : α)
  | note (n : ν) (rest : Plan ν α)
  | act (action : Action) (next : action.Answer → Plan ν α)

structure Site (σ : Type) where
  cache : Cache
  store : σ

def Action.perform {σ : Type} [Backend σ] (choice : SpecChoice) :
    (a : Action) → Site σ → a.Answer × Site σ
  | .consult key, s => (s.cache.lookup key, s)
  | .remember key id, s => ((), { s with cache := s.cache.insert key id })
  | .ask call, s =>
    ((Backend.answer choice call s.store).1,
      { s with store := (Backend.answer choice call s.store).2 })

namespace Plan

variable {ν α β : Type}

def bind : Plan ν α → (α → Plan ν β) → Plan ν β
  | .done a, f => f a
  | .note n rest, f => .note n (rest.bind f)
  | .act action next, f => .act action fun answer => (next answer).bind f

def remember (key : NaturalKey) (id : Int) : Plan ν Unit := .act (.remember key id) .done

def ask (call : Call) : Plan ν (Except StoreError call.Answer) := .act (.ask call) .done

def andThen {ε : Type} (p : Plan ν (Except ε α)) (f : α → Plan ν (Except ε β)) :
    Plan ν (Except ε β) :=
  p.bind fun
    | .ok a => f a
    | .error e => .done (.error e)

structure Outcome (σ ν α : Type) where
  value : α
  site : Site σ
  notes : List ν

variable {σ : Type} [Backend σ]

def run (choice : SpecChoice) : Plan ν α → Site σ → Outcome σ ν α
  | .done a, s => ⟨a, s, []⟩
  | .note n rest, s =>
    let o := rest.run choice s
    { o with notes := n :: o.notes }
  | .act action next, s => (next (action.perform choice s).1).run choice (action.perform choice s).2

theorem run_bind (choice : SpecChoice) (p : Plan ν α) (f : α → Plan ν β) (s : Site σ) :
    (p.bind f).run choice s =
      let o := p.run choice s
      let o' := (f o.value).run choice o.site
      { o' with notes := o.notes ++ o'.notes } := by
  induction p generalizing s with
  | done a => rfl
  | note n rest ih => simp [bind, run, ih]
  | act action next ih => simp only [bind, run, ih]

/-- The plan after its leading notes, and those notes. -/
def settle : Plan ν α → Plan ν α × List ν
  | .note n rest => (rest.settle.1, n :: rest.settle.2)
  | p => (p, [])

def step (choice : SpecChoice) : Plan ν α → Site σ → Outcome σ ν (Plan ν α)
  | .act action next, s =>
    let r := action.perform choice s
    ⟨(next r.1).settle.1, r.2, (next r.1).settle.2⟩
  | p, s => ⟨p.settle.1, s, p.settle.2⟩

/-- Goes on until the plan is done or has to wait for its turn at the store. -/
def advance (choice : SpecChoice) : Plan ν α → Site σ → Outcome σ ν (Plan ν α)
  | .done a, s => ⟨.done a, s, []⟩
  | .note n rest, s =>
    let o := rest.advance choice s
    { o with notes := n :: o.notes }
  | .act (.ask call) next, s =>
    if Backend.waits s.store then ⟨.act (.ask call) next, s, []⟩
    else
      let r := Action.perform choice (.ask call) s
      (next r.1).advance choice r.2
  | .act (.consult key) next, s =>
    let r := Action.perform choice (.consult key) s
    (next r.1).advance choice r.2
  | .act (.remember key id) next, s =>
    let r := Action.perform choice (.remember key id) s
    (next r.1).advance choice r.2

/-- A turn: the call that the plan waits for takes effect, and the plan goes on to the next. -/
def turn (choice : SpecChoice) : Plan ν α → Site σ → Outcome σ ν (Plan ν α)
  | .act action next, s =>
    let r := action.perform choice s
    (next r.1).advance choice r.2
  | p, s => p.advance choice s

def value? : Plan ν α → Option α
  | .done a => some a
  | _ => none

end Plan

end ComplianceIntake.Identity
