import ComplianceIntake.Proofs.Identity.Failures
import ComplianceIntake.Proofs.Intake.Postings
import ComplianceIntake.Proofs.Intake.Resolutions

/-!
# Ids that stay

A resolution that fails leaves the tables and the caches as they were. One that
succeeds leaves the key with its id: at its replica the key is answered from the
cache from then on, and wherever else a resolution of the key succeeds it gives
the same id.
-/

set_option autoImplicit false

namespace ComplianceIntake.Intake

open ComplianceIntake.Event
open ComplianceIntake.Store
open ComplianceIntake.Identity

namespace Resolutions

variable {g : Resolutions}

/-- The key has its id, and the replica's cache covers it; the resolutions of the key that were
begun there since the first `n` hit it. -/
structure Pinned (n replica : Nat) (key : NaturalKey) (id : Int) (g : Resolutions) : Prop where
  kept : g.Kept
  row : g.fleet.store.tables.id? key = some id
  covers : (g.fleet.caches replica).Covers key
  later : ∀ i r, n ≤ i → g.begun[i]? = some r → r.entity.key = .ok key → r.replica = replica →
    r.Hits key id

namespace Pinned

variable {n replica : Nat} {key : NaturalKey} {id : Int}

theorem lookup (h : g.Pinned n replica key id) :
    (g.fleet.caches replica).lookup key = some id := by
  obtain ⟨id',hid'⟩ := Option.isSome_iff_exists.mp h.covers
  have hrow := h.kept.fleet.caches replica key id' (Cache.mem_entries_of_lookup _ key id' hid')
  rw [hid', ← h.row, hrow]

theorem later_append (h : g.Pinned n replica key id) {new : Resolution}
    (hnew : new.entity.key = .ok key → new.replica = replica → new.Hits key id) :
    ∀ i r, n ≤ i → (g.begun ++ [new])[i]? = some r → r.entity.key = .ok key →
      r.replica = replica → r.Hits key id := by
  intro i r hi hr
  by_cases hlt : i < g.begun.length
  · rw [List.getElem?_append_left hlt] at hr
    exact h.later i r hi hr
  · rw [List.getElem?_append_right (Nat.le_of_not_lt hlt)] at hr
    obtain rfl := List.mem_singleton.mp (List.mem_of_getElem? hr)
    exact hnew

theorem turn (h : g.Pinned n replica key id) (u : Turn) : (g.turn u).Pinned n replica key id := by
  obtain ⟨hkept,hext⟩ := h.kept.turn u
  refine ⟨hkept,hext.tables.ids key id h.row,hext.caches replica key h.covers,?_⟩
  cases u with
  | resolve x replica' choice =>
    apply h.later_append
    rintro hkey rfl
    exact Resolution.hits_finish hkey h.lookup
  | start x replica' choice => exact h.later_append fun _ _ => Or.inl ⟨rfl,rfl⟩
  | step j =>
    intro i r hi hr hkey hreplica
    rw [Resolutions.turn] at hr
    split at hr
    · next old hold =>
      by_cases hij : j = i
      · subst hij
        rw [List.getElem?_set_self (List.getElem?_eq_some_iff.mp hold).1] at hr
        cases hr
        have hlookup := h.lookup
        rw [← hreplica] at hlookup
        exact (h.later j old hi hold hkey hreplica).step hkey hlookup
      · rw [List.getElem?_set_ne hij] at hr
        exact h.later i r hi hr hkey hreplica
    · exact h.later i r hi hr hkey hreplica
  | call choice c => exact h.later
  | setAvailable on => exact h.later

theorem turns (h : g.Pinned n replica key id) (us : List Turn) :
    (g.turns us).Pinned n replica key id := by
  induction us generalizing g with
  | nil => exact h
  | cons u us ih => exact ih (h.turn u)

end Pinned

/-- At the replica the key is answered with its id by the cache alone, as it was whenever a
resolution of it was begun there since the first `n`. No other id is given for it anywhere. -/
structure Stable (n replica : Nat) (key : NaturalKey) (id : Int) (g : Resolutions) : Prop where
  hit : ∀ (x : Entity) (choice : SpecChoice), x.key = .ok key →
    (g.fleet.carryOut choice replica x.resolve).value = .ok id ∧
      (g.fleet.carryOut choice replica x.resolve).fleet = g.fleet ∧
      x.resolve.trace choice (g.fleet.site replica) = [⟨.consult key, some id⟩]
  later : ∀ i r, n ≤ i → g.begun[i]? = some r → r.entity.key = .ok key → r.replica = replica →
    r.Hits key id
  same : ∀ r ∈ g.begun, r.entity.key = .ok key → ∀ id', r.plan = .done (.ok id') → id' = id
  elsewhere : ∀ (x : Entity) (choice : SpecChoice) (other : Nat) (id' : Int), x.key = .ok key →
    (g.fleet.carryOut choice other x.resolve).value = .ok id' → id' = id

theorem Kept.identified (h : g.Kept) {r : Resolution} (hr : r ∈ g.begun) {id : Int}
    (hdone : r.plan = .done (.ok id)) : r.entity.Identified g.fleet.store.tables id := by
  have hsafe := (h.begun r hr).safe
  rw [hdone] at hsafe
  cases hsafe with
  | done hsafe => exact hsafe _ trivial (.refl _) id rfl

theorem Pinned.same {n replica : Nat} {key : NaturalKey} {id : Int}
    (h : g.Pinned n replica key id) :
    ∀ r ∈ g.begun, r.entity.key = .ok key → ∀ id', r.plan = .done (.ok id') → id' = id := by
  intro r hr hkey id' hdone
  obtain ⟨key',hkey',hrow⟩ := h.kept.identified hr hdone
  rw [hkey] at hkey'
  cases hkey'
  exact Option.some.inj (hrow.symm.trans h.row)

theorem Pinned.stable {n replica : Nat} {key : NaturalKey} {id : Int}
    (h : g.Pinned n replica key id) : g.Stable n replica key id := by
  refine ⟨fun x choice hkey => ?_,h.later,h.same,fun x choice other id' hkey hvalue => ?_⟩
  · obtain ⟨hvalue,hsite,htrace⟩ := run_hit (s := g.fleet.site replica) choice hkey h.lookup
    refine ⟨hvalue,?_,htrace⟩
    rw [Fleet.carryOut, hsite, Fleet.set_site_site]
  · -- Carried out in one more turn, it is among those that were begun.
    have hnext := (h.turn (.resolve x other choice)).same
    exact hnext _ (List.mem_append_right _ List.mem_cons_self) hkey id' (congrArg Plan.done hvalue)

/-- A resolution that is done with an id has pinned it. -/
theorem Kept.pinned (h : g.Kept) {r : Resolution} (hr : r ∈ g.begun) {id : Int}
    (hdone : r.plan = .done (.ok id)) :
    ∃ key, r.entity.key = .ok key ∧ g.Pinned g.begun.length r.replica key id := by
  have hpath := (h.begun r hr).path
  rw [hdone] at hpath
  obtain ⟨key,hkey,t,ht,hsettles⟩ := settles_of_resolve hpath
  obtain ⟨key',hkey',hrow⟩ := h.identified hr hdone
  rw [hkey] at hkey'
  cases hkey'
  refine ⟨key,hkey,h,hrow,(h.begun r hr).covers t ht key id hsettles,?_⟩
  intro i r' hi hr'
  exact absurd (List.getElem?_eq_some_iff.mp hr').1 (Nat.not_lt_of_le hi)

/-- A resolution that fails in one go leaves the tables and all caches as they were. -/
theorem fails_clean (f : Fleet Ledger) (choice : SpecChoice) (replica : Nat) (x : Entity)
    {error : ResolveError} (h : (f.carryOut choice replica x.resolve).value = .error error) :
    (f.carryOut choice replica x.resolve).fleet.store.tables = f.store.tables ∧
      (f.carryOut choice replica x.resolve).fleet.caches = f.caches := by
  have hpath := x.resolve.follows_trace choice (f.site replica)
  rw [show (x.resolve.run choice (f.site replica)).value = .error error from h] at hpath
  obtain ⟨hcache,htables⟩ := x.resolve.run_of_idle choice (f.site replica) (idle_of_resolve hpath)
  exact ⟨htables,f.caches_set_site replica _ hcache⟩

/-- Over any store and with any caches that agree with it: a resolution that fails has changed no
table and no cache, and one that gives an id gives it for good. From then on, whatever else is
resolved or asked and even where the store is unavailable, its replica answers the key from the
cache, and every resolution of the key that succeeds gives the same id. -/
theorem resolve_atomic_stable (f : Fleet Ledger) (hf : ∀ i, (f.caches i).Agrees f.store.tables)
    (before : List Turn) :
    let g := ({ fleet := f } : Resolutions).turns before
    (∀ (x : Entity) choice replica error,
      (g.fleet.carryOut choice replica x.resolve).value = .error error →
      (g.fleet.carryOut choice replica x.resolve).fleet.store.tables = g.fleet.store.tables ∧
        (g.fleet.carryOut choice replica x.resolve).fleet.caches = g.fleet.caches) ∧
    (∀ r ∈ g.begun, ∀ error, r.plan = .done (.error error) → ∀ t ∈ r.taken, t.Idle) ∧
    ∀ r ∈ g.begun, ∀ id, r.plan = .done (.ok id) → ∃ key, r.entity.key = .ok key ∧
      ∀ after, (g.turns after).Stable g.begun.length r.replica key id := by
  intro g
  have hempty : ({ fleet := f } : Resolutions).Kept :=
    ⟨⟨trivial,hf⟩,fun _ hr => absurd hr List.not_mem_nil⟩
  have hg : g.Kept := hempty.turns before
  refine ⟨fun x choice replica error => fails_clean g.fleet choice replica x,?_,?_⟩
  · intro r hr error hdone
    have hpath := (hg.begun r hr).path
    rw [hdone] at hpath
    exact idle_of_resolve hpath
  · intro r hr id hdone
    obtain ⟨key,hkey,hpinned⟩ := hg.pinned hr hdone
    exact ⟨key,hkey,fun after => (hpinned.turns after).stable⟩

def clusterFirst : List Turn := [.resolve (.cluster { identifier := " c " }) 0 .first]

theorem cluster_first_stable :
    let g := ({ fleet := .new {} } : Resolutions).turns clusterFirst
    (∀ i, ((Fleet.new ({} : Ledger)).caches i).Agrees {}) ∧
      ((g.turns [.setAvailable false]).fleet.carryOut .first 0
        (Entity.cluster { identifier := "c" }).resolve).value = .ok 1 := by
  intro g
  have hagrees : ∀ i, ((Fleet.new ({} : Ledger)).caches i).Agrees {} :=
    fun _ => Cache.agrees_empty _
  obtain ⟨_,_,hstable⟩ := resolve_atomic_stable (.new {}) hagrees clusterFirst
  obtain ⟨r,hr,hentity,hreplica,hdone⟩ : ∃ r ∈ g.begun,
      r.entity = .cluster { identifier := " c " } ∧ r.replica = 0 ∧ r.plan = .done (.ok 1) :=
    ⟨_,List.mem_cons_self,rfl,rfl,congrArg Plan.done (by decide +kernel)⟩
  obtain ⟨key,hkey,hlater⟩ := hstable r hr 1 hdone
  have hsame : (Entity.cluster { identifier := "c" }).key = r.entity.key := by
    rw [hentity]
    decide +kernel
  have hhit := (hlater [.setAvailable false]).hit _ .first (hsame.trans hkey)
  rw [hreplica] at hhit
  exact ⟨hagrees,hhit.1⟩

end Resolutions

end ComplianceIntake.Intake
