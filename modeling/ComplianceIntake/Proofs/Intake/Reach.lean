import ComplianceIntake.Proofs.Intake.Interleaving

/-!
# Wherever requests lead

Requests of one kind are posted one after the other, or any number of them are
in flight together. What is valid of an empty ledger, and is kept by all calls
that such a request may make, is valid of every ledger that they lead to, at any
point of a request and whatever was dropped or failed. Caches agree with the
ledger there.
-/

set_option autoImplicit false

namespace ComplianceIntake.Intake

open ComplianceIntake.Event
open ComplianceIntake.Store
open ComplianceIntake.Identity
open ComplianceIntake.Journal

/-- Fleets that postings of this kind lead to, one after the other or any number of them in
flight. -/
inductive Fleet.ReachedBy (kind : Posting → Prop) : Fleet Ledger → Prop
  | run (ms : List Move) (h : ∀ p, .post p ∈ ms → kind p) :
      ReachedBy kind (({} : Run).moves ms).fleet
  | traffic (us : List Turn) (h : ∀ p, .arrive p ∈ us → kind p) :
      ReachedBy kind (({} : Traffic).turns us).fleet

def Fleet.Reached (f : Fleet Ledger) : Prop := f.ReachedBy fun _ => True

theorem Fleet.Reached.run (ms : List Move) : (({} : Run).moves ms).fleet.Reached :=
  ReachedBy.run ms fun _ _ => trivial

variable {valid : Tables → Prop} {may : Call → Prop}

theorem Fleet.Kept.move (hp : Preserved valid may) {r : Run} (h : r.fleet.Kept valid) {m : Move}
    (hq : ∀ p, m = .post p → p.Qualifies valid may) : (r.move m).fleet.Kept valid := by
  cases m with
  | post p => exact (Run.kept_post hp (hq p rfl) h).1
  | setAvailable on => exact h.set_available on

theorem Fleet.Kept.moves (hp : Preserved valid may) {r : Run} (h : r.fleet.Kept valid)
    {ms : List Move} (hq : ∀ p, .post p ∈ ms → p.Qualifies valid may) :
    (r.moves ms).fleet.Kept valid := by
  induction ms generalizing r with
  | nil => exact h
  | cons m ms ih =>
    have hfirst : (r.move m).fleet.Kept valid :=
      h.move hp fun p hm => hq p (hm ▸ List.mem_cons_self)
    exact ih hfirst fun p hm => hq p (List.mem_cons_of_mem m hm)

namespace Traffic

structure Within (valid : Tables → Prop) (may : Call → Prop) (t : Traffic) : Prop where
  fleet : t.fleet.Kept valid
  safe : ∀ x ∈ t.exchanges, x.plan.Safe valid may (fun _ _ => True) t.tables

variable {t : Traffic}

theorem within_empty (h : valid {}) : ({} : Traffic).Within valid may :=
  ⟨.new h,fun _ hx => absurd hx List.not_mem_nil⟩

theorem Within.set (h : t.Within valid may) {f : Fleet Ledger} (hf : f.Kept valid)
    (hg : t.tables.Grows f.store.tables) (i : Nat) {y : Exchange}
    (hy : y.plan.Safe valid may (fun _ _ => True) f.store.tables) :
    ({ fleet := f, exchanges := t.exchanges.set i y } : Traffic).Within valid may := by
  refine ⟨hf,?_⟩
  intro z hz
  rcases List.mem_or_eq_of_mem_set hz with hz | rfl
  · exact (h.safe z hz).mono hg
  · exact hy

theorem Within.advance (hp : Preserved valid may) (h : t.Within valid may) {i : Nat} {x : Exchange}
    (hx : t.exchanges[i]? = some x) : (t.advance i x).Within valid may := by
  have hsafe := h.safe x (List.mem_of_getElem? hx)
  obtain ⟨hk,hg,hrest,_⟩ := hsafe.step hp x.posting.choice (h.fleet.site x.posting.replica)
  exact h.set (h.fleet.set_site x.posting.replica _ hk hg) hg i hrest

theorem Within.turn (hp : Preserved valid may) (h : t.Within valid may) {u : Turn}
    (hq : ∀ p, u = .arrive p → p.Qualifies valid may) : (t.turn u).Within valid may := by
  cases u with
  | setAvailable on => exact ⟨h.fleet.set_available on,h.safe⟩
  | arrive p =>
    refine ⟨h.fleet,?_⟩
    intro x hx
    rcases List.mem_append.mp hx with hx | hx
    · exact h.safe x hx
    · rw [List.mem_singleton.mp hx]
      have hplan := gives_plan p (hq p rfl) t.tables h.fleet.tables
      exact hplan.settle.weaken fun _ _ _ _ => trivial
  | step i =>
    rw [Traffic.turn]
    split
    · next x hx =>
      split
      · exact h
      · exact h.advance hp hx
    · exact h
  | drop i =>
    rw [Traffic.turn]
    split
    · next x hx =>
      have hplan : x.drop.plan = x.plan := by
        unfold Exchange.drop
        split <;> rfl
      have hsafe := h.safe x (List.mem_of_getElem? hx)
      exact h.set h.fleet (.refl _) i (hplan ▸ hsafe)
    · exact h

theorem Within.turns (hp : Preserved valid may) (h : t.Within valid may) {us : List Turn}
    (hq : ∀ p, .arrive p ∈ us → p.Qualifies valid may) : (t.turns us).Within valid may := by
  induction us generalizing t with
  | nil => exact h
  | cons u us ih =>
    have hfirst : (t.turn u).Within valid may :=
      h.turn hp fun p hu => hq p (hu ▸ List.mem_cons_self)
    exact ih hfirst fun p hu => hq p (List.mem_cons_of_mem u hu)

end Traffic

theorem Fleet.ReachedBy.kept {kind : Posting → Prop} (hp : Preserved valid may) (hempty : valid {})
    (hq : ∀ p, kind p → p.Qualifies valid may) {f : Fleet Ledger} (hf : f.ReachedBy kind) :
    f.Kept valid := by
  cases hf with
  | run ms h =>
    have hnew : ({} : Run).fleet.Kept valid := .new hempty
    exact hnew.moves hp fun p hm => hq p (h p hm)
  | traffic us h =>
    exact ((Traffic.within_empty hempty).turns hp fun p hu => hq p (h p hu)).fleet

theorem Fleet.Reached.kept {f : Fleet Ledger} (h : f.Reached) : f.Kept Tables.Sound :=
  ReachedBy.kept preserved_sound Tables.sound_empty (fun p _ => entitles_all _ p) h

end ComplianceIntake.Intake
