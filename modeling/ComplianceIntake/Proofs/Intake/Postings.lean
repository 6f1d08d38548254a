import ComplianceIntake.Proofs.Intake.Effects
import ComplianceIntake.Proofs.Intake.Runs

/-!
# What a posting does to the fleet

A posting that is refused and one during an outage leave the fleet as it was.
One that holds a valid event, on an available ledger, obtains rows at its own
replica: those of the cluster and the parent policy, and, unless the hash is
unknown, that of the policy, before its event is inserted.
-/

set_option autoImplicit false

namespace ComplianceIntake.Intake

open ComplianceIntake.Event
open ComplianceIntake.Store
open ComplianceIntake.Identity
open ComplianceIntake.Journal

namespace Fleet

/-- Rows for the drafts were obtained at one replica, which left the ledger with these tables.
Only the counts of calls can have changed beside. -/
structure Gains (f f' : Fleet Ledger) (replica : Nat) (ds : List Draft) (t : Tables) : Prop where
  obtained : ObtainedAll ds (f.caches replica) f.store.tables (f'.caches replica) t
  others : ∀ i, i ≠ replica → f'.caches i = f.caches i
  available : f'.store.available = f.store.available

variable {f f' : Fleet Ledger} {p : Posting} {v : Verdict} {ds : List Draft} {t : Tables}

theorem Gains.untouched (h : f.Gains f' p.replica ds f'.store.tables)
    (hk : ∀ d ∈ ds, d.key.kind ≠ .policy) (i : Nat) :
    Untouched (f.caches i) f.store.tables (f'.caches i) f'.store.tables := by
  have hu := h.obtained.untouched hk
  by_cases hi : i = p.replica
  · rw [hi]
    exact hu
  · exact ⟨hu.policies,hu.events,congrArg Cache.policies (h.others i hi)⟩

theorem Gains.without (h : f.Gains f' p.replica ds t) (i : Nat) :
    (f'.caches i).without (ds.map Draft.key) = (f.caches i).without (ds.map Draft.key) ∧
      t.without (ds.map Draft.key) = f.store.tables.without (ds.map Draft.key) := by
  obtain ⟨hc,ht⟩ := h.obtained.without fun d hd => List.mem_map_of_mem hd
  by_cases hi : i = p.replica
  · rw [hi]
    exact ⟨hc,ht⟩
  · rw [h.others i hi]
    exact ⟨rfl,ht⟩

theorem set_site_site (f : Fleet Ledger) (i : Nat) : f.setSite i (f.site i) = f := by
  have hcaches : (f.setSite i (f.site i)).caches = f.caches := by
    funext j
    show (if j = i then f.caches i else f.caches j) = f.caches j
    by_cases hj : j = i
    · rw [if_pos hj, hj]
    · rw [if_neg hj]
  exact congrArg (Fleet.mk f.store) hcaches

theorem post_of_result (h : p.plan.result p.choice (f.site p.replica) = (v, f.site p.replica)) :
    (f.post p).value = v ∧ (f.post p).fleet = f := by
  have hfleet : f.setSite p.replica (p.plan.result p.choice (f.site p.replica)).2 = f := by
    rw [h]
    exact f.set_site_site p.replica
  exact ⟨congrArg Prod.fst h,hfleet⟩

theorem post_of_comes_to {c : Cache} {t' : Tables}
    (h : p.plan.ComesTo p.choice (f.site p.replica) v c t') (hon : f.store.available = true)
    (hgot : ObtainedAll ds (f.caches p.replica) f.store.tables c t) :
    (f.post p).value = v ∧ (f.post p).fleet.store.tables = t' ∧
      f.Gains (f.post p).fleet p.replica ds t := by
  obtain ⟨s,hres,hs⟩ := h
  have hstore : (f.post p).fleet.store = s.store := congrArg (fun o => o.2.store) hres
  have hcache : ∀ i, (f.post p).fleet.caches i = if i = p.replica then s.cache else f.caches i := by
    intro i
    exact congrArg (fun o => if i = p.replica then o.2.cache else f.caches i) hres
  have hgains : f.Gains (f.post p).fleet p.replica ds t := by
    constructor
    · rw [hcache, if_pos rfl, hs.cache]
      exact hgot
    · intro i hi
      rw [hcache, if_neg hi]
    · rw [hstore, hs.available, hon]
  exact ⟨congrArg Prod.fst hres,(congrArg Ledger.tables hstore).trans hs.tables,hgains⟩

end Fleet

variable {f : Fleet Ledger} {p : Posting}

theorem post_of_refused {refusal : Refusal} (ha : p.request.accepted = .error refusal) :
    (f.post p).value = .error refusal ∧ (f.post p).fleet = f :=
  Fleet.post_of_result (result_of_refused p.choice (f.site p.replica) ha)

variable {e : ComplianceEvent} {hash : String}

theorem post_of_unavailable (ha : p.request.accepted = .ok e) (hv : e.Valid hash)
    (hoff : f.store.available = false) :
    ∃ refusal, refusal.isFailure = true ∧ (f.post p).value = .error refusal ∧
      (f.post p).fleet = f := by
  have hstalls : ∃ refusal, refusal.isFailure = true ∧
      (record (e.completed p.moment.now hash)).result p.choice (f.site p.replica) =
        (.error refusal, f.site p.replica) :=
    record_of_unavailable (hv.completed p.moment.now) hoff
  obtain ⟨refusal,hfailure,hrecord⟩ := hstalls
  have hres := (result_of_accepted p.choice (f.site p.replica) ha hv).trans hrecord
  exact ⟨refusal,hfailure,Fleet.post_of_result hres⟩

/-- The policy comes with this text, or with its hash alone and this is that of the text. -/
def SpecFor (t : Tables) (e : ComplianceEvent) (hash spec : String) : Prop :=
  e.policy.specText = some spec ∨ e.policy.specText = none ∧ spec ∈ t.specsOf hash

theorem SpecFor.knows {t : Tables} {spec : String} (h : SpecFor t e hash spec)
    (hnone : e.policy.specText = none) : t.Knows hash := by
  rcases h with h | ⟨_,hspec⟩
  · rw [hnone] at h
    contradiction
  · obtain ⟨row,hrow,hhash,_⟩ := (t.mem_specs_of_iff _ _).mp hspec
    exact ⟨row,hrow,hhash⟩

/-- What is there once a valid event was recorded: the rows it needs, and its own after them. -/
def Records (f f' : Fleet Ledger) (p : Posting) (e : ComplianceEvent) (hash : String)
    (r : Receipt) : Prop :=
  ∃ spec t, SpecFor f.store.tables e hash spec ∧
    f.Gains f' p.replica (e.ownerDrafts ++ [.policy (e.policy.keyWith hash) spec]) t ∧
    f'.store.tables = (t.insertEvent r.row.record).2 ∧ r.eventId = (t.insertEvent r.row.record).1

/-- What posting a valid event on an available ledger comes to. -/
theorem post_obtains (hf : f.Kept Tables.Sound) (hon : f.store.available = true)
    (ha : p.request.accepted = .ok e) (hv : e.Valid hash) :
    (∃ r, (f.post p).value = .ok r ∧ Records f (f.post p).fleet p e hash r ∧
      r.event = (e.completed p.moment.now hash).withoutSpec ∧
      (e.policy.specText = none → f.store.tables.Knows hash)) ∨
    (f.post p).value = .error (.unresolved (.unknownSpec hash)) ∧
      f.Gains (f.post p).fleet p.replica e.ownerDrafts (f.post p).fleet.store.tables ∧
      e.policy.specText = none ∧ ¬ f.store.tables.Knows hash := by
  have hplan := result_of_accepted p.choice (f.site p.replica) ha hv
  have hc := hv.completed p.moment.now
  have hsite : (f.site p.replica).Holds (f.caches p.replica) f.store.tables := ⟨rfl,rfl,hon⟩
  rcases record_obtains p.choice hc hsite (hf.caches p.replica) with
    ⟨r,d,c,t,⟨key,spec,hkey,rfl,hspec⟩,hgot,⟨s,hres,hs⟩,hid,hevent⟩ |
    ⟨c,t,hgot,⟨s,hres,hs⟩,hnone,hunknown⟩
  · cases hc.policy.symm.trans hkey
    obtain ⟨hval,htables,hgains⟩ := Fleet.post_of_comes_to ⟨s,hplan.trans hres,hs⟩ hon hgot
    exact Or.inl ⟨r,hval,⟨spec,t,hspec,hgains,htables,hid⟩,hevent,SpecFor.knows hspec⟩
  · obtain ⟨hval,htables,hgains⟩ := Fleet.post_of_comes_to ⟨s,hplan.trans hres,hs⟩ hon hgot
    rw [← htables] at hgains
    exact Or.inr ⟨hval,hgains,hnone,hunknown⟩

/-- The receipt of a recorded event is true of the ledger it is recorded in. -/
theorem recorded_of_post (hf : f.Kept Tables.Sound) (ha : p.request.accepted = .ok e)
    (hv : e.Valid hash) {r : Receipt} (hr : (f.post p).value = .ok r) :
    e.Recorded p.moment.now hash (f.post p).fleet.store.tables r ∧
      (f.post p).fleet.store.tables.events = f.store.tables.events ++ [r.row] := by
  obtain ⟨_,_,hanswered⟩ := Run.kept_post preserved_sound (entitles_all _ p) hf
  obtain ⟨e',hash',ha',hv',hrec⟩ := hanswered r hr
  cases ha.symm.trans ha'
  cases hv.identifying.symm.trans hv'.identifying
  have hevents := Run.events_post f p
  rw [hr] at hevents
  exact ⟨hrec,hevents⟩

end ComplianceIntake.Intake
