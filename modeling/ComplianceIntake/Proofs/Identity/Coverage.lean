import ComplianceIntake.Proofs.Identity.Bookkeeping
import ComplianceIntake.Proofs.Identity.Resolution
import ComplianceIntake.Proofs.Identity.Traces

/-!
# The keys that a cache covers

No action takes a key out of a cache, and a resolution that comes to an id leaves
an entry for its key. Where the cache has an entry, a resolution of the key is
over with the lookup.
-/

set_option autoImplicit false

namespace ComplianceIntake.Identity

open ComplianceIntake.Event
open ComplianceIntake.Store

def Cache.Covers (c : Cache) (key : NaturalKey) : Prop := (c.lookup key).isSome = true

theorem Cache.covers_insert_iff (c : Cache) (key other : NaturalKey) (id : Int) :
    (c.insert key id).Covers other ↔ c.Covers other ∨ other = key := by
  unfold Covers
  by_cases h : other = key
  · simp [h, lookup_insert_self]
  · simp [h, lookup_insert_of_ne c id h]

theorem Cache.Covers.insert {c : Cache} {key : NaturalKey} (h : c.Covers key) (other : NaturalKey)
    (id : Int) : (c.insert other id).Covers key :=
  (c.covers_insert_iff other key id).mpr (Or.inl h)

structure Site.Extends (s s' : Site Ledger) : Prop where
  tables : s.store.tables.Grows s'.store.tables
  cache : ∀ key, s.cache.Covers key → s'.cache.Covers key

namespace Site.Extends

variable {s s' s'' : Site Ledger}

theorem refl (s : Site Ledger) : s.Extends s := ⟨.refl _,fun _ h => h⟩

theorem trans (h : s.Extends s') (h' : s'.Extends s'') : s.Extends s'' :=
  ⟨h.tables.trans h'.tables,fun key hkey => h'.cache key (h.cache key hkey)⟩

end Site.Extends

section Actions

variable (choice : SpecChoice)

theorem extends_perform (a : Action) (s : Site Ledger) : s.Extends (a.perform choice s).2 := by
  refine ⟨grows_perform choice a s,fun key h => ?_⟩
  cases a with
  | consult other => exact h
  | remember other id => exact h.insert other id
  | ask call => exact h

/-- Whatever settles a key leaves an entry for it. -/
theorem covers_perform (a : Action) (s : Site Ledger) {key : NaturalKey} {id : Int}
    (h : Settles key id ⟨a, (a.perform choice s).1⟩) :
    (a.perform choice s).2.cache.Covers key := by
  rcases h with h | h
  · cases a with
    | consult other =>
      obtain ⟨rfl,hfound⟩ :
          other = key ∧ (Action.perform choice (.consult other) s).1 = some id := by
        simpa using h
      exact Option.isSome_iff_exists.mpr ⟨id,hfound⟩
    | remember other i => exact nomatch h
    | ask call => exact nomatch h
  · cases a with
    | consult other => exact nomatch h
    | remember other i =>
      cases h
      exact Option.isSome_iff_exists.mpr ⟨id,s.cache.lookup_insert_self key id⟩
    | ask call => exact nomatch h

namespace Plan

variable {ν α : Type}

theorem extends_step (p : Plan ν α) (s : Site Ledger) : s.Extends (p.step choice s).site := by
  cases p with
  | done a => exact .refl s
  | note n rest => exact .refl s
  | act action next => exact extends_perform choice action s

theorem extends_run (p : Plan ν α) (s : Site Ledger) : s.Extends (p.run choice s).site := by
  induction p generalizing s with
  | done a => exact .refl s
  | note n rest ih => exact ih s
  | act action next ih => exact (extends_perform choice action s).trans (ih _ _)

variable {key : NaturalKey} {id : Int} {t : Taken}

theorem covers_step {p : Plan ν α} {s : Site Ledger} (ht : t ∈ p.taken? choice s)
    (h : Settles key id t) : (p.step choice s).site.cache.Covers key := by
  cases p with
  | done a => exact nomatch ht
  | note n rest => exact nomatch ht
  | act action next =>
    cases ht
    exact covers_perform choice action s h

theorem covers_run {p : Plan ν α} {s : Site Ledger} (ht : t ∈ p.trace choice s)
    (h : Settles key id t) : (p.run choice s).site.cache.Covers key := by
  induction p generalizing s with
  | done a => exact absurd ht List.not_mem_nil
  | note n rest ih => exact ih ht
  | act action next ih =>
    rcases List.mem_cons.mp ht with rfl | ht
    · exact (extends_run choice (next _) _).cache key (covers_perform choice action s h)
    · exact ih _ ht

end Plan

section Hit

variable {s : Site Ledger} {x : Entity} {key : NaturalKey} {id : Int}

/-- A resolution whose key the cache has is over with the lookup. -/
theorem run_hit (hkey : x.key = .ok key) (h : s.cache.lookup key = some id) :
    (x.resolve.run choice s).value = .ok id ∧ (x.resolve.run choice s).site = s ∧
      x.resolve.trace choice s = [⟨.consult key, some id⟩] := by
  obtain ⟨_,fetch,_,heq⟩ := Entity.resolve_of_keyed hkey
  rw [heq, identify, Plan.run, Plan.trace]
  simp only [Action.perform, h]
  exact ⟨rfl,rfl,rfl⟩

theorem step_hit (hkey : x.key = .ok key) (h : s.cache.lookup key = some id) :
    (x.resolve.step choice s).value = .done (.ok id) ∧
      x.resolve.taken? choice s = some ⟨.consult key, some id⟩ := by
  obtain ⟨_,fetch,_,heq⟩ := Entity.resolve_of_keyed hkey
  rw [heq, identify]
  constructor
  · simp only [Plan.step, Action.perform, h]
    rfl
  · simp only [Plan.taken?, Action.perform, h]

end Hit

end Actions

end ComplianceIntake.Identity
