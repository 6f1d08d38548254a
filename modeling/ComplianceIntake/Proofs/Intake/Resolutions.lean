import ComplianceIntake.Proofs.Identity.Coverage
import ComplianceIntake.Proofs.Intake.Interleaving

/-!
# Resolutions side by side

Resolutions of any records at any replicas, each carried out in one go or taking
its actions in between the others, over a store that may be called by others and
become unavailable. What each of them relies on is kept by all that can happen.
-/

set_option autoImplicit false

namespace ComplianceIntake.Intake

open ComplianceIntake.Event
open ComplianceIntake.Store
open ComplianceIntake.Identity

namespace Fleet

structure Extends (f f' : Fleet Ledger) : Prop where
  tables : f.store.tables.Grows f'.store.tables
  caches : ∀ i key, (f.caches i).Covers key → (f'.caches i).Covers key

namespace Extends

variable {f f' f'' : Fleet Ledger}

theorem refl (f : Fleet Ledger) : f.Extends f := ⟨.refl _,fun _ _ h => h⟩

theorem set_site {i : Nat} {s : Site Ledger} (h : (f.site i).Extends s) :
    f.Extends (f.setSite i s) := by
  refine ⟨h.tables,fun j key hkey => ?_⟩
  show (if j = i then s.cache else f.caches j).Covers key
  by_cases hj : j = i
  · subst hj
    rw [if_pos rfl]
    exact h.cache key hkey
  · rw [if_neg hj]
    exact hkey

end Extends

theorem caches_set_site {σ : Type} (f : Fleet σ) (i : Nat) (s : Site σ) (h : s.cache = f.caches i) :
    (f.setSite i s).caches = f.caches := by
  funext j
  show (if j = i then s.cache else f.caches j) = f.caches j
  split
  · next hj => rw [hj, h]
  · rfl

theorem covers_set_site {f : Fleet Ledger} {i : Nat} {s : Site Ledger} {key : NaturalKey}
    (h : s.cache.Covers key) : ((f.setSite i s).caches i).Covers key := by
  show (if i = i then s.cache else f.caches i).Covers key
  rwa [if_pos rfl]

end Fleet

structure Resolution where
  entity : Entity
  replica : Nat
  choice : SpecChoice
  plan : Steps Int
  taken : List Taken

namespace Resolution

def start (x : Entity) (replica : Nat) (choice : SpecChoice) : Resolution :=
  ⟨x, replica, choice, x.resolve, []⟩

def step (r : Resolution) (s : Site Ledger) : Resolution :=
  { r with
    plan := (r.plan.step r.choice s).value
    taken := r.taken ++ (r.plan.taken? r.choice s).toList }

def finish (r : Resolution) (s : Site Ledger) : Resolution :=
  { r with
    plan := .done (r.plan.run r.choice s).value
    taken := r.taken ++ r.plan.trace r.choice s }

def Hits (r : Resolution) (key : NaturalKey) (id : Int) : Prop :=
  r.plan = r.entity.resolve ∧ r.taken = [] ∨
    r.plan = .done (.ok id) ∧ r.taken = [⟨.consult key, some id⟩]

structure Kept (f : Fleet Ledger) (r : Resolution) : Prop where
  safe : r.plan.Gives (fun _ => True) (fun _ => True) r.entity.Identified f.store.tables
  path : r.entity.resolve.Follows r.taken r.plan
  covers : ∀ t ∈ r.taken, ∀ key id, Settles key id t → (f.caches r.replica).Covers key

variable {f f' : Fleet Ledger} {r : Resolution}

theorem Kept.mono (h : r.Kept f) (hf : f.Extends f') : r.Kept f' :=
  ⟨h.safe.mono hf.tables,h.path,
    fun t ht key id hs => hf.caches _ key (h.covers t ht key id hs)⟩

theorem kept_start (x : Entity) (replica : Nat) (choice : SpecChoice) (f : Fleet Ledger) :
    (start x replica choice).Kept f :=
  ⟨gives_resolve x _ (fun _ _ _ _ => trivial) fun _ => trivial,.stop _,
    fun _ ht => absurd ht List.not_mem_nil⟩

variable {key : NaturalKey} {id : Int}

theorem hits_finish {x : Entity} {replica : Nat} {choice : SpecChoice} {s : Site Ledger}
    (hkey : x.key = .ok key) (h : s.cache.lookup key = some id) :
    ((start x replica choice).finish s).Hits key id := by
  obtain ⟨hvalue,_,htrace⟩ := run_hit choice hkey h
  exact Or.inr ⟨congrArg Plan.done hvalue,htrace⟩

theorem Hits.step {s : Site Ledger} (h : r.Hits key id) (hkey : r.entity.key = .ok key)
    (hl : s.cache.lookup key = some id) : (r.step s).Hits key id := by
  rcases h with ⟨hplan,htaken⟩ | ⟨hplan,htaken⟩
  · obtain ⟨hvalue,hact⟩ := step_hit r.choice hkey hl
    rw [← hplan] at hvalue hact
    refine Or.inr ⟨hvalue,?_⟩
    rw [Resolution.step, hact, htaken]
    rfl
  · -- An answered resolution has nothing left to do.
    refine Or.inr ⟨?_,?_⟩
    · rw [Resolution.step, hplan]
      rfl
    · rw [Resolution.step, hplan, htaken]
      rfl

theorem Kept.follow (h : r.Kept f) (hext : f.Extends f') {plan : Steps Int} {us : List Taken}
    (hsafe : plan.Gives (fun _ => True) (fun _ => True) r.entity.Identified f'.store.tables)
    (hpath : r.plan.Follows us plan)
    (hcovers : ∀ t ∈ us, ∀ key id, Settles key id t → (f'.caches r.replica).Covers key) :
    ({ r with plan := plan, taken := r.taken ++ us } : Resolution).Kept f' := by
  refine ⟨hsafe,h.path.trans hpath,fun t ht key id hs => ?_⟩
  rcases List.mem_append.mp ht with ht | ht
  · exact hext.caches _ key (h.covers t ht key id hs)
  · exact hcovers t ht key id hs

theorem preserved_any : Preserved (fun _ => True) fun _ => True := fun _ _ _ _ _ => trivial

theorem Kept.step (h : r.Kept f) (hf : f.Kept fun _ => True) :
    let f' := f.setSite r.replica (r.plan.step r.choice (f.site r.replica)).site
    f'.Kept (fun _ => True) ∧ f.Extends f' ∧ (r.step (f.site r.replica)).Kept f' := by
  intro f'
  obtain ⟨hk,hg,hsafe,_⟩ := h.safe.step preserved_any r.choice (hf.site r.replica)
  have hext : f.Extends f' := .set_site (r.plan.extends_step r.choice (f.site r.replica))
  refine ⟨hf.set_site r.replica _ hk hg,hext,h.follow hext hsafe ?_ fun t ht key id hs => ?_⟩
  · exact Plan.follows_step r.choice r.plan (f.site r.replica)
  · exact Fleet.covers_set_site (Plan.covers_step r.choice (Option.mem_toList.mp ht) hs)

theorem Kept.finish (h : r.Kept f) (hf : f.Kept fun _ => True) :
    let f' := f.setSite r.replica (r.plan.run r.choice (f.site r.replica)).site
    f'.Kept (fun _ => True) ∧ f.Extends f' ∧ (r.finish (f.site r.replica)).Kept f' := by
  intro f'
  obtain ⟨hk,hg,hpost⟩ := h.safe.run preserved_any r.choice (hf.site r.replica)
  have hext : f.Extends f' := .set_site (r.plan.extends_run r.choice (f.site r.replica))
  have hsafe : (Plan.done (r.plan.run r.choice (f.site r.replica)).value : Steps Int).Gives
      (fun _ => True) (fun _ => True) r.entity.Identified f'.store.tables := by
    refine .done fun u _ hu id hid => ?_
    obtain ⟨key,hkey,hrow⟩ := hpost id hid
    exact ⟨key,hkey,hu.ids key id hrow⟩
  refine ⟨hf.set_site r.replica _ hk hg,hext,h.follow hext hsafe ?_ fun t ht key id hs => ?_⟩
  · exact r.plan.follows_trace r.choice (f.site r.replica)
  · exact Fleet.covers_set_site (Plan.covers_run r.choice ht hs)

end Resolution

structure Resolutions where
  fleet : Fleet Ledger
  begun : List Resolution := []

/-- What can happen: a resolution in one go, the beginning of one or its next action, a call to the
store by others, and a switch of the store's availability. -/
inductive Resolutions.Turn where
  | resolve (x : Entity) (replica : Nat) (choice : SpecChoice)
  | start (x : Entity) (replica : Nat) (choice : SpecChoice)
  | step (i : Nat)
  | call (choice : SpecChoice) (c : Call)
  | setAvailable (on : Bool)

namespace Resolutions

def turn (g : Resolutions) : Turn → Resolutions
  | .resolve x replica choice =>
    { fleet := (g.fleet.carryOut choice replica x.resolve).fleet
      begun := g.begun ++ [(Resolution.start x replica choice).finish (g.fleet.site replica)] }
  | .start x replica choice => { g with begun := g.begun ++ [.start x replica choice] }
  | .step i =>
    match g.begun[i]? with
    | some r =>
      let s := g.fleet.site r.replica
      { fleet := g.fleet.setSite r.replica (r.plan.step r.choice s).site
        begun := g.begun.set i (r.step s) }
    | none => g
  | .call choice c => { g with fleet.store := (g.fleet.store.answer choice c).2 }
  | .setAvailable on => { g with fleet := g.fleet.setAvailable on }

def turns (g : Resolutions) (us : List Turn) : Resolutions := us.foldl turn g

structure Kept (g : Resolutions) : Prop where
  fleet : g.fleet.Kept fun _ => True
  begun : ∀ r ∈ g.begun, r.Kept g.fleet

variable {g : Resolutions}

theorem Kept.append (h : g.Kept) {f : Fleet Ledger} {r : Resolution} (hf : f.Kept fun _ => True)
    (hext : g.fleet.Extends f) (hr : r.Kept f) : (⟨f, g.begun ++ [r]⟩ : Resolutions).Kept := by
  refine ⟨hf,List.forall_mem_append.mpr ⟨?_,List.forall_mem_singleton.mpr hr⟩⟩
  exact fun r' hr' => (h.begun r' hr').mono hext

theorem Kept.turn (h : g.Kept) (u : Turn) : (g.turn u).Kept ∧ g.fleet.Extends (g.turn u).fleet := by
  cases u with
  | resolve x replica choice =>
    obtain ⟨hf,hext,hr⟩ := (Resolution.kept_start x replica choice g.fleet).finish h.fleet
    exact ⟨h.append hf hext hr,hext⟩
  | start x replica choice =>
    exact ⟨h.append h.fleet (.refl _) (Resolution.kept_start x replica choice _),.refl _⟩
  | step i =>
    rw [Resolutions.turn]
    split
    · next r hr =>
      obtain ⟨hf,hext,hstep⟩ := (h.begun r (List.mem_of_getElem? hr)).step h.fleet
      refine ⟨⟨hf,fun r' hr' => ?_⟩,hext⟩
      rcases List.mem_or_eq_of_mem_set hr' with hr' | rfl
      · exact (h.begun r' hr').mono hext
      · exact hstep
    · exact ⟨h,.refl _⟩
  | call choice c =>
    have hext : g.fleet.Extends (g.turn (.call choice c)).fleet :=
      ⟨g.fleet.store.grows_answer choice c,fun _ _ hkey => hkey⟩
    refine ⟨⟨⟨trivial,fun i => ?_⟩,fun r hr => (h.begun r hr).mono hext⟩,hext⟩
    exact (h.fleet.caches i).mono hext.tables
  | setAvailable on =>
    have hext : g.fleet.Extends (g.fleet.setAvailable on) := ⟨.refl _,fun _ _ hkey => hkey⟩
    exact ⟨⟨h.fleet.set_available on,fun r hr => (h.begun r hr).mono hext⟩,hext⟩

theorem Kept.turns (h : g.Kept) (us : List Turn) : (g.turns us).Kept := by
  induction us generalizing g with
  | nil => exact h
  | cons u us ih => exact ih (h.turn u).1

end Resolutions

end ComplianceIntake.Intake
