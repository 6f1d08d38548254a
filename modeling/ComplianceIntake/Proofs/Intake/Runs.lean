import ComplianceIntake.Proofs.Intake.Commitment

/-!
# What a run keeps

Through a whole run every cache agrees with the ledger, every receipt is true
of it, and its events are the rows of the receipts in order, whichever replicas
answered and whatever failed in between. What is valid of the tables is a
parameter, as are the calls that may be made of the ledger.
-/

set_option autoImplicit false

namespace ComplianceIntake.Intake

open ComplianceIntake.Event
open ComplianceIntake.Store
open ComplianceIntake.Identity
open ComplianceIntake.Journal

/-- Valid tables, and caches that all agree with them. -/
structure Fleet.Kept (valid : Tables → Prop) (f : Fleet Ledger) : Prop where
  tables : valid f.store.tables
  caches : ∀ i, (f.caches i).Agrees f.store.tables

namespace Fleet.Kept

variable {valid : Tables → Prop} {f : Fleet Ledger}

theorem site (h : f.Kept valid) (i : Nat) : (f.site i).Kept valid := ⟨h.tables,h.caches i⟩

theorem set_site (h : f.Kept valid) (i : Nat) (s : Site Ledger) (hs : s.Kept valid)
    (hg : f.store.tables.Grows s.store.tables) : (f.setSite i s).Kept valid := by
  constructor
  · exact hs.tables
  · intro j
    show (if j = i then s.cache else f.caches j).Agrees s.store.tables
    by_cases hj : j = i
    · rw [if_pos hj]
      exact hs.cache
    · rw [if_neg hj]
      exact (h.caches j).mono hg

theorem set_available (h : f.Kept valid) (on : Bool) : (f.setAvailable on).Kept valid :=
  ⟨h.tables,h.caches⟩

theorem new (h : valid {}) : (Fleet.new ({} : Ledger)).Kept valid :=
  ⟨h,fun _ => Cache.agrees_empty _⟩

end Fleet.Kept

namespace Run

def tables (r : Run) : Tables := r.fleet.store.tables

def receipts (r : Run) : List Receipt := r.replies.filterMap (·.2.toOption)

structure Kept (valid : Tables → Prop) (r : Run) : Prop where
  fleet : r.fleet.Kept valid
  answered : ∀ p receipt, (p, .ok receipt) ∈ r.replies → p.Answered r.tables receipt
  events : r.tables.events = r.receipts.map Receipt.row

theorem kept_empty {valid : Tables → Prop} (h : valid {}) : ({} : Run).Kept valid :=
  ⟨.new h,fun _ _ hm => absurd hm (by simp),rfl⟩

def Entitles (valid : Tables → Prop) (may : Call → Prop) : Prop :=
  ∀ (p : Posting) e hash, p.request.accepted = .ok e → e.Valid hash →
    Entitled valid may (e.completed p.moment.now hash)

variable {valid : Tables → Prop} {may : Call → Prop}

theorem kept_post (hp : Preserved valid may) {p : Posting} (hq : p.Qualifies valid may)
    {f : Fleet Ledger} (h : f.Kept valid) :
    (f.post p).fleet.Kept valid ∧ f.store.tables.Grows (f.post p).fleet.store.tables ∧
      ∀ receipt, (f.post p).value = .ok receipt →
        p.Answered (f.post p).fleet.store.tables receipt := by
  have hplan := gives_plan p hq f.store.tables h.tables
  obtain ⟨hk,hg,hpost⟩ := hplan.run hp p.choice (h.site p.replica)
  exact ⟨h.set_site p.replica _ hk hg,hg,hpost⟩

theorem events_post (f : Fleet Ledger) (p : Posting) :
    (f.post p).fleet.store.tables.events =
      f.store.tables.events ++ ((f.post p).value.toOption.map Receipt.row).toList :=
  (commits_plan p).run p.choice (f.site p.replica)

theorem Kept.move (hp : Preserved valid may) (he : Entitles valid may) {r : Run}
    (h : r.Kept valid) (m : Move) : (r.move m).Kept valid := by
  cases m with
  | setAvailable on => exact ⟨h.fleet.set_available on,h.answered,h.events⟩
  | post p =>
    obtain ⟨hk,hg,hnew⟩ := kept_post hp (he p) h.fleet
    refine ⟨hk,?_,?_⟩
    · intro q receipt hm
      rcases List.mem_append.mp hm with hm | hm
      · exact (h.answered q receipt hm).mono hg
      · obtain ⟨rfl,hv⟩ := Prod.mk.inj (List.mem_singleton.mp hm)
        exact hnew receipt hv.symm
    · show (r.fleet.post p).fleet.store.tables.events = _
      rw [events_post]
      show r.tables.events ++ _ = _
      rw [h.events]
      simp only [receipts, Run.move, List.filterMap_append, List.map_append]
      cases (r.fleet.post p).value <;> rfl

theorem Kept.moves (hp : Preserved valid may) (he : Entitles valid may) {r : Run}
    (h : r.Kept valid) (ms : List Move) : (r.moves ms).Kept valid := by
  induction ms generalizing r with
  | nil => exact h
  | cons m ms ih => exact ih (h.move hp he m)

/-- Rows never leave and keys keep their ids, whatever happens later in the run. -/
theorem grows_moves (hp : Preserved valid may) (he : Entitles valid may) {r : Run}
    (h : r.Kept valid) (ms : List Move) : r.tables.Grows (r.moves ms).tables := by
  induction ms generalizing r with
  | nil => exact .refl _
  | cons m ms ih =>
    have hstep : r.tables.Grows (r.move m).tables := by
      cases m with
      | setAvailable on => exact .refl _
      | post p => exact (kept_post hp (he p) h.fleet).2.1
    exact hstep.trans (ih (h.move hp he m))

end Run

theorem preserved_sound : Preserved Tables.Sound fun _ => True :=
  fun choice c l _ h => l.sound_serve choice c h

theorem entitles_all (valid : Tables → Prop) : Run.Entitles valid fun _ => True :=
  fun _ _ _ _ _ => ⟨fun _ _ _ _ => trivial,fun _ _ _ _ _ _ => trivial,fun _ _ _ _ => trivial,
    fun _ => trivial,fun _ _ => trivial⟩

theorem Run.kept (ms : List Move) : (({} : Run).moves ms).Kept Tables.Sound :=
  (Run.kept_empty Tables.sound_empty).moves preserved_sound (entitles_all _) ms

end ComplianceIntake.Intake
