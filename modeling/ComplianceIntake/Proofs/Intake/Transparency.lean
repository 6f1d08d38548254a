import ComplianceIntake.Proofs.Intake.KnownSpecs
import ComplianceIntake.Proofs.Intake.SentSpecs
import ComplianceIntake.Proofs.Intake.Stages

/-!
# Caches make no difference

A caller cannot tell what the caches hold. On an available ledger a plan gives
the same at any two sites whose tables are alike, whatever their caches know as
long as they agree with the tables. On one that is unavailable a valid event
ends in the same failure, wherever the caches let it come to. A run with caches
is therefore answered like the run in which every request finds its replica
with an empty cache.
-/

set_option autoImplicit false

namespace ComplianceIntake.Identity

open ComplianceIntake.Event
open ComplianceIntake.Store
open ComplianceIntake.Journal

structure Site.Twin (R : SpecRel) (s s' : Site Ledger) : Prop where
  available : s.store.available = true
  available' : s'.store.available = true
  cache : s.cache.Agrees s.store.tables
  cache' : s'.cache.Agrees s'.store.tables
  alike : s.store.tables.Alike R s'.store.tables

namespace Plan

variable {ν α β ε : Type} {R : SpecRel} {choice choice' : SpecChoice}

def Oblivious (R : SpecRel) (choice choice' : SpecChoice) (p : Plan ν α) : Prop :=
  ∀ s s', s.Twin R s' → (p.result choice s).1 = (p.result choice' s').1 ∧
    (p.result choice s).2.Twin R (p.result choice' s').2

theorem oblivious_done (a : α) : (done a : Plan ν α).Oblivious R choice choice' :=
  fun _ _ h => ⟨rfl,h⟩

theorem Oblivious.note {p : Plan ν α} (n : ν) (h : p.Oblivious R choice choice') :
    (note n p).Oblivious R choice choice' :=
  h

theorem Oblivious.bind {p : Plan ν α} {f : α → Plan ν β} (h : p.Oblivious R choice choice')
    (hf : ∀ a, (f a).Oblivious R choice choice') : (p.bind f).Oblivious R choice choice' := by
  intro s s' hs
  obtain ⟨hval,hsite⟩ := h s s' hs
  rw [result_bind, result_bind, ← hval]
  exact hf _ _ _ hsite

theorem Oblivious.and_then {p : Plan ν (Except ε α)} {f : α → Plan ν (Except ε β)}
    (h : p.Oblivious R choice choice') (hf : ∀ a, (f a).Oblivious R choice choice') :
    (p.andThen f).Oblivious R choice choice' := by
  apply h.bind
  intro r
  cases r with
  | ok a => exact hf a
  | error e => exact oblivious_done _

end Plan

variable {R : SpecRel} {choice choice' : SpecChoice}

theorem oblivious_resolve {x : Entity} {key : NaturalKey} (h : x.Keyed key)
    (hf : R.Fits choice choice') : x.resolve.Oblivious R choice choice' := by
  intro s s' hs
  obtain ⟨c,t,⟨o,ho,hoh⟩,ht,hc,_⟩ := resolve_comes_to choice h ⟨rfl,rfl,hs.available⟩ hs.cache
  obtain ⟨c',t',⟨o',ho',hoh'⟩,ht',hc',_⟩ :=
    resolve_comes_to choice' h ⟨rfl,rfl,hs.available'⟩ hs.cache'
  obtain ⟨hval,halike⟩ := h.asked_alike hs.alike hf
  rw [ho, ho']
  have hcache : o.cache.Agrees o.store.tables := by
    rw [hoh.cache, hoh.tables]
    exact hc
  have hcache' : o'.cache.Agrees o'.store.tables := by
    rw [hoh'.cache, hoh'.tables]
    exact hc'
  have htables : o.store.tables.Alike R o'.store.tables := by
    rw [hoh.tables, hoh'.tables]
    exact halike.replace ht ht'
  exact ⟨hval,hoh.available,hoh'.available,hcache,hcache',htables⟩

end ComplianceIntake.Identity

namespace ComplianceIntake.Intake

open ComplianceIntake.Event
open ComplianceIntake.Store
open ComplianceIntake.Identity
open ComplianceIntake.Journal

section Available

variable {R : SpecRel} {choice choice' : SpecChoice}

theorem oblivious_resolve_for {x : Entity} {key : NaturalKey} (h : x.Keyed key)
    (hf : R.Fits choice choice') : (resolveFor x).Oblivious R choice choice' := by
  apply (oblivious_resolve h hf).bind
  intro r
  match r with
  | .ok id => exact Plan.oblivious_done _
  | .error (.store error) => exact (Plan.oblivious_done _).note _
  | .error (.unusable fault) => exact Plan.oblivious_done _
  | .error (.unknownSpec hash) => exact Plan.oblivious_done _

theorem oblivious_resolve_parent {e : ComplianceEvent} {hash : String} (h : e.Valid hash)
    (hf : R.Fits choice choice') : (resolveParent e.parentPolicy).Oblivious R choice choice' := by
  cases hp : e.parentPolicy with
  | none => exact Plan.oblivious_done _
  | some p =>
    exact (oblivious_resolve_for (h.keyed_parent hp) hf).and_then fun _ => Plan.oblivious_done _

theorem oblivious_insert_event (record : EventRecord) :
    (insertEvent record).Oblivious R choice choice' := by
  intro s s' hs
  obtain ⟨hid,halike⟩ := hs.alike.insert_event record
  rw [result_insert_event choice record hs.available,
    result_insert_event choice' record hs.available']
  have hcache := hs.cache.mono (s.store.tables.grows_insert_event record)
  have hcache' := hs.cache'.mono (s'.store.tables.grows_insert_event record)
  exact ⟨congrArg Except.ok hid,hs.available,hs.available',hcache,hcache',halike⟩

theorem oblivious_record {e : ComplianceEvent} {hash : String} (h : e.Valid hash)
    (hf : R.Fits choice choice') : (record e).Oblivious R choice choice' := by
  refine (oblivious_resolve_for h.keyed_cluster hf).and_then fun clusterId => ?_
  refine (oblivious_resolve_parent h hf).and_then fun parentPolicyId => ?_
  refine (oblivious_resolve_for h.keyed_policy hf).and_then fun policyId => ?_
  exact (oblivious_insert_event _).and_then fun eventId => Plan.oblivious_done _

theorem oblivious_plan (p : Posting) (hf : R.Fits choice choice') :
    p.plan.Oblivious R choice choice' := by
  intro s s' hs
  cases ha : p.request.accepted with
  | error refusal =>
    rw [result_of_refused choice s ha, result_of_refused choice' s' ha]
    exact ⟨rfl,hs⟩
  | ok e =>
    obtain ⟨hash,hv⟩ := p.request.valid_of_accepted e ha
    rw [result_of_accepted choice s ha hv, result_of_accepted choice' s' ha hv]
    exact oblivious_record (hv.completed p.moment.now) hf s s' hs

end Available

/-- Moves that differ at most in how a specification is chosen. -/
inductive Move.Like (R : SpecRel) : Move → Move → Prop
  | post {p : Posting} {choice : SpecChoice} (h : R.Fits p.choice choice) :
      Like R (.post p) (.post { p with choice := choice })
  | setAvailable (on : Bool) : Like R (.setAvailable on) (.setAvailable on)

def Fleet.forget {σ : Type} (f : Fleet σ) : Fleet σ := .new f.store

namespace Run

/-- A move for which every replica starts with an empty cache. -/
def moveAnew (r : Run) (m : Move) : Run := { r with fleet := r.fleet.forget }.move m

def movesAnew (r : Run) (ms : List Move) : Run := ms.foldl moveAnew r

def responses (r : Run) : List Response := r.replies.map fun x => responseOf x.2

structure Twin (R : SpecRel) (r r' : Run) : Prop where
  available : r.fleet.store.available = r'.fleet.store.available
  fleet : r.fleet.Kept fun _ => True
  alike : r.tables.Alike R r'.tables
  responses : r.responses = r'.responses

theorem twin_empty (R : SpecRel) : Twin R {} {} :=
  ⟨rfl,.new trivial,Tables.alike_empty R,rfl⟩

theorem responses_move (r : Run) (p : Posting) : (r.move (.post p)).responses =
    r.responses ++ [responseOf (p.plan.result p.choice (r.fleet.site p.replica)).1] := by
  rw [responses, responses, move, List.map_append]
  rfl

variable {R : SpecRel} {r r' : Run}

/-- The fleet after a posting, if the plan left its replica's cache in agreement. -/
theorem Twin.fleet_post (h : Twin R r r') (p : Posting)
    (hc : (p.plan.result p.choice (r.fleet.site p.replica)).2.cache.Agrees
      (p.plan.result p.choice (r.fleet.site p.replica)).2.store.tables) :
    (r.move (.post p)).fleet.Kept fun _ => True :=
  h.fleet.set_site p.replica _ ⟨trivial,hc⟩
    (p.plan.grows_result p.choice (r.fleet.site p.replica))

theorem Twin.post (h : Twin R r r') (p : Posting) (choice : SpecChoice)
    (hf : R.Fits p.choice choice) :
    Twin R (r.move (.post p)) (r'.moveAnew (.post { p with choice := choice })) := by
  cases ha : r.fleet.store.available with
  | true =>
    have hsites : (r.fleet.site p.replica).Twin R (r'.fleet.forget.site p.replica) :=
      ⟨ha,h.available.symm.trans ha,h.fleet.caches _,Cache.agrees_empty _,h.alike⟩
    obtain ⟨hval,htwin⟩ := oblivious_plan p hf _ _ hsites
    have hresponses : (r.move (.post p)).responses =
        (r'.moveAnew (.post { p with choice := choice })).responses := by
      rw [moveAnew, responses_move, responses_move, hval]
      exact congrArg (· ++ _) h.responses
    have havailable := htwin.available.trans htwin.available'.symm
    exact ⟨havailable,h.fleet_post p htwin.cache,htwin.alike,hresponses⟩
  | false =>
    obtain ⟨response,hresponse⟩ := response_of_unavailable p
    obtain ⟨refusal,hres,hr⟩ := hresponse p.choice (r.fleet.site p.replica) ha
    obtain ⟨refusal',hres',hr'⟩ :=
      hresponse choice (r'.fleet.forget.site p.replica) (h.available.symm.trans ha)
    have hcache : (p.plan.result p.choice (r.fleet.site p.replica)).2.cache.Agrees
        (p.plan.result p.choice (r.fleet.site p.replica)).2.store.tables := by
      rw [hres]
      exact h.fleet.caches _
    constructor
    · show (p.plan.result p.choice (r.fleet.site p.replica)).2.store.available =
        (p.plan.result choice (r'.fleet.forget.site p.replica)).2.store.available
      rw [hres, hres']
      exact h.available
    · exact h.fleet_post p hcache
    · show (p.plan.result p.choice (r.fleet.site p.replica)).2.store.tables.Alike R
        (p.plan.result choice (r'.fleet.forget.site p.replica)).2.store.tables
      rw [hres, hres']
      exact h.alike
    · have hsame : responseOf (p.plan.result p.choice (r.fleet.site p.replica)).1 =
          responseOf (p.plan.result choice (r'.fleet.forget.site p.replica)).1 := by
        rw [hres, hres', hr, hr']
      rw [moveAnew, responses_move, responses_move, hsame]
      exact congrArg (· ++ _) h.responses

theorem Twin.move (h : Twin R r r') {m m' : Move} (hm : m.Like R m') :
    Twin R (r.move m) (r'.moveAnew m') := by
  cases hm with
  | @post p choice hf => exact h.post p choice hf
  | setAvailable on => exact ⟨rfl,h.fleet.set_available on,h.alike,h.responses⟩

theorem Twin.moves (h : Twin R r r') {ms ms' : List Move}
    (hms : List.Forall₂ (Move.Like R) ms ms') :
    Twin R (r.moves ms) (r'.movesAnew ms') := by
  induction hms generalizing r r' with
  | nil => exact h
  | cons hm _ ih => exact ih (h.move hm)

end Run

namespace Move

/-- The same move, where the store chooses among specifications in another way. -/
def choosing (m : Move) (choice : SpecChoice) : Move :=
  match m with
  | .post p => .post { p with choice := choice }
  | .setAvailable on => .setAvailable on

theorem like_same (m : Move) : m.Like .same m := by
  cases m with
  | post p => exact .post (SpecRel.fits_same p.choice)
  | setAvailable on => exact .setAvailable on

theorem like_choosing (m : Move) (choice : SpecChoice) : m.Like .hashed (m.choosing choice) := by
  cases m with
  | post p => exact .post (SpecRel.fits_hashed p.choice choice)
  | setAvailable on => exact .setAvailable on

end Move

theorem Run.kept_move_anew {valid : Tables → Prop} {may : Call → Prop} (hp : Preserved valid may)
    {r : Run} (h : r.fleet.Kept valid) {m : Move}
    (hq : ∀ p, m = .post p → p.Qualifies valid may) : (r.moveAnew m).fleet.Kept valid := by
  have hforget : r.fleet.forget.Kept valid := ⟨h.tables,fun _ => Cache.agrees_empty _⟩
  exact Fleet.Kept.move (r := { r with fleet := r.fleet.forget }) hp hforget hq

theorem Run.kept_moves_anew {valid : Tables → Prop} {may : Call → Prop} (hp : Preserved valid may)
    {r : Run} (h : r.fleet.Kept valid) {ms : List Move}
    (hq : ∀ p, .post p ∈ ms → p.Qualifies valid may) : (r.movesAnew ms).fleet.Kept valid := by
  induction ms generalizing r with
  | nil => exact h
  | cons m ms ih =>
    have hfirst : (r.moveAnew m).fleet.Kept valid :=
      Run.kept_move_anew hp h fun p hm => hq p (hm ▸ List.mem_cons_self)
    exact ih hfirst fun p hm => hq p (List.mem_cons_of_mem m hm)

/-- What is sent does not depend on how the store chooses. -/
theorem sent_of_choosing {ms : List (Move × SpecChoice)} {spec : String}
    (h : Sent (ms.map fun m => m.1.choosing m.2) spec) : Sent (ms.map fun m => m.1) spec := by
  obtain ⟨p,hp,hsends⟩ := h
  obtain ⟨⟨m,choice⟩,hm,heq⟩ := List.mem_map.mp hp
  cases m with
  | post q =>
    cases heq
    exact ⟨q,List.mem_map.mpr ⟨_,hm,rfl⟩,hsends⟩
  | setAvailable on => exact nomatch heq

theorem specs_sent_anew (ms : List Move) :
    (({} : Run).movesAnew ms).tables.SpecsAmong (Sent ms) := by
  have hkept := Run.kept_moves_anew (preserved_specs_among (Sent ms)) (kept_specs_among_empty _)
    (qualifies_sent ms)
  exact hkept.tables

/-- A run with caches and the same run in which every request starts with empty caches are
answered alike, and their ledgers have the same rows. If the store of the second run chooses among
the texts of a hash in a way of its own, the texts of a policy have the policy's hash in both, and
so one canonical text unless SHA-1 has a collision among the specifications that were sent. -/
theorem caching_transparent (ms : List (Move × SpecChoice)) :
    let moves := ms.map fun m => m.1
    let run := ({} : Run).moves moves
    let anew := ({} : Run).movesAnew moves
    let rechosen := ({} : Run).movesAnew (ms.map fun m => m.1.choosing m.2)
    (run.responses = anew.responses ∧ run.tables.Alike .same anew.tables) ∧
    run.responses = rechosen.responses ∧ run.tables.Alike .hashed rechosen.tables ∧
    (Spec.CollisionFree (Sent moves) → run.tables.Alike .canonical rechosen.tables) := by
  intro moves run anew rechosen
  have hsame : Run.Twin .same run anew :=
    (Run.twin_empty _).moves (List.forall₂_same.mpr fun m _ => m.like_same)
  have hhashed : Run.Twin .hashed run rechosen := by
    apply (Run.twin_empty _).moves
    rw [List.forall₂_map_left_iff, List.forall₂_map_right_iff]
    exact List.forall₂_same.mpr fun m _ => m.1.like_choosing m.2
  refine ⟨⟨hsame.responses,hsame.alike⟩,hhashed.responses,hhashed.alike,?_⟩
  intro hfree
  have hleft : run.tables.SpecsAmong (Sent moves) := specs_sent moves
  have hright : rechosen.tables.SpecsAmong (Sent moves) :=
    fun row hrow => sent_of_choosing (specs_sent_anew _ row hrow)
  exact hhashed.alike.canonical hfree hleft hright

def lastChoice : SpecChoice := ⟨fun spec specs => (spec :: specs).getLast (List.cons_ne_nil _ _),
  fun _ _ => List.getLast_mem _⟩

/-- Two stores that answer for one hash in two ways. -/
theorem caching_transparent_of_spellings :
    let ps := [spelling, specified "m" " 1", specified "n" "2", hashAlone]
    let run := ({} : Run).moves (ps.map .post)
    let rechosen := ({} : Run).movesAnew (ps.map fun p => .post { p with choice := lastChoice })
    run.tables.policies.map (·.spec) = ["1", " 1", "2", "1"] ∧
    rechosen.tables.policies.map (·.spec) = ["1", " 1", "2", " 1"] ∧
    run.responses = rechosen.responses ∧ run.tables.Alike .canonical rechosen.tables := by
  intro ps run rechosen
  have hspecs : ps.map Posting.spec? = [some "1", some " 1", some "2", none] := by decide +kernel
  have hfree : Spec.CollisionFree (Sent (ps.map .post)) :=
    collision_free_of_posts hspecs (by decide +kernel)
  obtain ⟨_,hresponses,_,hcanonical⟩ :=
    caching_transparent (ps.map fun p => (.post p, lastChoice))
  exact ⟨by decide +kernel,by decide +kernel,hresponses,hcanonical hfree⟩

end ComplianceIntake.Intake
