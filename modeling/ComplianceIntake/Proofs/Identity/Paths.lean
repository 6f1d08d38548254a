import ComplianceIntake.Intake.Traffic

/-!
# Paths through plans

The actions that a plan takes on its way to a result split where the plan is
put together from parts, so the actions of a request contain those of each
resolution in it. A resolution that gives an id either found it in the cache or
remembered it: it is in this that its key and its id meet.
-/

set_option autoImplicit false

namespace ComplianceIntake.Identity

open ComplianceIntake.Event
open ComplianceIntake.Store
open ComplianceIntake.Journal

namespace Plan

variable {ν α β : Type}

theorem Follows.trans {p q r : Plan ν α} {ts us : List Taken} (h : p.Follows ts q)
    (h' : q.Follows us r) : p.Follows (ts ++ us) r := by
  induction h with
  | stop p => exact h'
  | note _ ih => exact .note (ih h')
  | act answer _ ih => exact .act answer (ih h')

theorem follows_settle (p : Plan ν α) : p.Follows [] p.settle.1 := by
  induction p with
  | done a => exact .stop _
  | note n rest ih => exact .note ih
  | act action next _ => exact .stop _

theorem follows_step {σ : Type} [Backend σ] (choice : SpecChoice) (p : Plan ν α) (s : Site σ) :
    p.Follows (p.taken? choice s).toList (p.step choice s).value := by
  cases p with
  | done a => exact .stop _
  | note n rest => exact follows_settle _
  | act action next => exact .act _ (follows_settle _)

theorem follows_done {a b : α} {ts : List Taken} (h : (Plan.done (ν := ν) a).Follows ts (.done b)) :
    ts = [] ∧ a = b := by
  cases h
  exact ⟨rfl,rfl⟩

theorem Follows.of_bind {p : Plan ν α} {f : α → Plan ν β} {b : β} {ts : List Taken}
    (h : (p.bind f).Follows ts (.done b)) :
    ∃ a us vs, ts = us ++ vs ∧ p.Follows us (.done a) ∧ (f a).Follows vs (.done b) := by
  induction p generalizing ts with
  | done a => exact ⟨a,[],ts,rfl,.stop _,h⟩
  | note n rest ih =>
    cases h with
    | note h =>
      obtain ⟨a,us,vs,hts,hp,hf⟩ := ih h
      exact ⟨a,us,vs,hts,.note hp,hf⟩
  | act action next ih =>
    cases h with
    | act answer h =>
      obtain ⟨a,us,vs,rfl,hp,hf⟩ := ih answer h
      exact ⟨a,⟨action, answer⟩ :: us,vs,rfl,.act answer hp,hf⟩

theorem Follows.of_and_then {ε : Type} {p : Plan ν (Except ε α)} {f : α → Plan ν (Except ε β)}
    {b : β} {ts : List Taken} (h : (p.andThen f).Follows ts (.done (.ok b))) :
    ∃ a us vs, ts = us ++ vs ∧ p.Follows us (.done (.ok a)) ∧ (f a).Follows vs (.done (.ok b)) := by
  obtain ⟨r,us,vs,hts,hp,hf⟩ := h.of_bind
  cases r with
  | ok a => exact ⟨a,us,vs,hts,hp,hf⟩
  | error error => exact nomatch (follows_done hf).2

end Plan

/-- The action by which a resolution comes to its id: a hit, or remembering. -/
def Settles (key : NaturalKey) (id : Int) (t : Taken) : Prop :=
  t = ⟨.consult key, some id⟩ ∨ t = ⟨.remember key id, ()⟩

theorem settles_of_settle_miss {key : NaturalKey} {attempt : Except ResolveError Int} {id : Int}
    {ts : List Taken} (h : (settleMiss key attempt).Follows ts (.done (.ok id))) :
    ∃ t ∈ ts, Settles key id t := by
  cases attempt with
  | error error =>
    cases h with
    | note h => exact nomatch (Plan.follows_done h).2
  | ok i =>
    cases h with
    | note h =>
    cases h with
    | note h =>
    cases h with
    | act answer h =>
      obtain ⟨rfl,hi⟩ := Plan.follows_done h
      cases hi
      exact ⟨_,List.mem_cons_self,Or.inr rfl⟩

theorem settles_of_identify {key : NaturalKey} {fetch : Steps Int} {id : Int} {ts : List Taken}
    (h : (identify key fetch).Follows ts (.done (.ok id))) : ∃ t ∈ ts, Settles key id t := by
  cases h with
  | @act _ _ _ ts answer h =>
    cases answer with
    | some i =>
      cases h with
      | note h =>
        obtain ⟨rfl,hi⟩ := Plan.follows_done h
        cases hi
        exact ⟨_,List.mem_cons_self,Or.inl rfl⟩
    | none =>
      cases h with
      | note h =>
        obtain ⟨attempt,us,vs,rfl,_,hmiss⟩ := h.of_bind
        obtain ⟨t,ht,hs⟩ := settles_of_settle_miss hmiss
        exact ⟨t,List.mem_cons_of_mem _ (List.mem_append_right us ht),hs⟩

theorem settles_of_resolve_keyed {κ : Type} {key : Except KeyFault κ} {natural : κ → NaturalKey}
    {fetch : κ → Steps Int} {id : Int} {ts : List Taken}
    (h : (resolveKeyed key natural fetch).Follows ts (.done (.ok id))) :
    ∃ k, key.map natural = .ok k ∧ ∃ t ∈ ts, Settles k id t := by
  cases key with
  | error fault => exact nomatch (Plan.follows_done h).2
  | ok k => exact ⟨natural k,rfl,settles_of_identify h⟩

theorem settles_of_resolve {x : Entity} {id : Int} {ts : List Taken}
    (h : x.resolve.Follows ts (.done (.ok id))) :
    ∃ key, x.key = .ok key ∧ ∃ t ∈ ts, Settles key id t := by
  cases x with
  | cluster c => exact settles_of_resolve_keyed h
  | parentPolicy p => exact settles_of_resolve_keyed h
  | policy p => exact settles_of_resolve_keyed h

end ComplianceIntake.Identity
