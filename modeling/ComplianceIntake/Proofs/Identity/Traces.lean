import ComplianceIntake.Proofs.Identity.Paths

/-!
# Traces and possible results

The trace of a run is the list of the actions that it takes, with their answers.
It is one of the ways in which the plan can be followed to its end. What a plan
may give is what it gives along any of them: whatever the cache and the store
answer, and so also where other requests take their turns in between.
-/

set_option autoImplicit false

namespace ComplianceIntake.Identity

open ComplianceIntake.Store

namespace Plan

variable {ν α β : Type}

section Trace

variable {σ : Type} [Backend σ] (choice : SpecChoice)

def trace : Plan ν α → Site σ → List Taken
  | .done _, _ => []
  | .note _ rest, s => rest.trace s
  | .act action next, s =>
    let r := action.perform choice s
    ⟨action, r.1⟩ :: (next r.1).trace r.2

theorem trace_bind (p : Plan ν α) (f : α → Plan ν β) (s : Site σ) :
    (p.bind f).trace choice s = p.trace choice s ++
      (f (p.run choice s).value).trace choice (p.run choice s).site := by
  induction p generalizing s with
  | done a => rfl
  | note n rest ih => exact ih s
  | act action next ih => exact congrArg (List.cons _) (ih _ _)

theorem follows_trace (p : Plan ν α) (s : Site σ) :
    p.Follows (p.trace choice s) (.done (p.run choice s).value) := by
  induction p generalizing s with
  | done a => exact .stop _
  | note n rest ih => exact .note (ih s)
  | act action next ih => exact .act _ (ih _ _)

end Trace

/-- With some answers to its actions the plan ends like this. -/
def MayGive (p : Plan ν α) (a : α) : Prop := ∃ ts, p.Follows ts (.done a)

theorem may_give_run {σ : Type} [Backend σ] (choice : SpecChoice) (p : Plan ν α) (s : Site σ) :
    p.MayGive (p.run choice s).value :=
  ⟨_,p.follows_trace choice s⟩

@[simp] theorem may_give_done (a b : α) : (done a : Plan ν α).MayGive b ↔ a = b := by
  constructor
  · rintro ⟨ts,h⟩
    exact (follows_done h).2
  · rintro rfl
    exact ⟨[],.stop _⟩

@[simp] theorem may_give_note (n : ν) (p : Plan ν α) (a : α) :
    (note n p).MayGive a ↔ p.MayGive a := by
  constructor
  · rintro ⟨ts,h⟩
    cases h with
    | note h => exact ⟨ts,h⟩
  · rintro ⟨ts,h⟩
    exact ⟨ts,.note h⟩

@[simp] theorem may_give_act (action : Action) (next : action.Answer → Plan ν α) (a : α) :
    (act action next).MayGive a ↔ ∃ answer, (next answer).MayGive a := by
  constructor
  · rintro ⟨ts,h⟩
    cases h with
    | act answer h => exact ⟨answer,_,h⟩
  · rintro ⟨answer,ts,h⟩
    exact ⟨_,.act answer h⟩

theorem may_give_bind (p : Plan ν α) (f : α → Plan ν β) (b : β) :
    (p.bind f).MayGive b ↔ ∃ a, p.MayGive a ∧ (f a).MayGive b := by
  induction p with
  | done a => simp [bind]
  | note n rest ih => simp [bind, ih]
  | act action next ih =>
    simp only [bind, may_give_act, ih]
    constructor
    · rintro ⟨answer,a,hp,hf⟩
      exact ⟨a,⟨answer,hp⟩,hf⟩
    · rintro ⟨a,⟨answer,hp⟩,hf⟩
      exact ⟨answer,a,hp,hf⟩

theorem may_give_and_then_error {ε : Type} (p : Plan ν (Except ε α)) (f : α → Plan ν (Except ε β))
    (e : ε) : (p.andThen f).MayGive (.error e) ↔
      p.MayGive (.error e) ∨ ∃ a, p.MayGive (.ok a) ∧ (f a).MayGive (.error e) := by
  rw [andThen, may_give_bind]
  constructor
  · rintro ⟨r,hp,hf⟩
    cases r with
    | ok a => exact Or.inr ⟨a,hp,hf⟩
    | error e' =>
      cases (may_give_done _ _).mp hf
      exact Or.inl hp
  · rintro (hp | ⟨a,hp,hf⟩)
    · exact ⟨_,hp,(may_give_done _ _).mpr rfl⟩
    · exact ⟨_,hp,hf⟩

end Plan

end ComplianceIntake.Identity
