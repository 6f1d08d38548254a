import ComplianceIntake.Intake.Observed
import ComplianceIntake.Proofs.Identity.Bookkeeping
import ComplianceIntake.Proofs.Intake.Runs
import ComplianceIntake.Proofs.Intake.Stages
import ComplianceIntake.Proofs.Metrics.Counting

/-!
# The metrics account for what happened

The books of a posting are balanced whichever way it ends: a miss is followed
by one attempt, an attempt that succeeded is one call that the ledger counted,
a request that passed looks up one cluster, and every request is counted once,
as created exactly when its row is in the ledger. A run therefore leaves a
registry whose counters agree with each other, with the ledger, and with the
requests that were posted, from whatever the caches held at its start.
-/

set_option autoImplicit false

namespace ComplianceIntake.Identity

theorem Entity.Keyed.key_eq {x : Entity} {key : Event.NaturalKey} (h : x.Keyed key) :
    x.key = .ok key := by
  cases h with
  | cluster h => simp [Entity.key, h, Except.map]
  | parentPolicy h => simp [Entity.key, h, Except.map]
  | policy h => simp [Entity.key, h, Except.map]

namespace Plan

open ComplianceIntake.Journal

variable {α : Type} {p : Plan Note α}

theorem Tallies.logs (h : p.Tallies) (entries : List Entry) :
    (noting (entries.map .log) p).Tallies := by
  induction entries with
  | nil => exact h
  | cons entry entries ih => exact ih.note rfl

theorem Makes.logs {q : Note → Bool} {k : Nat} (h : p.Makes q k) (entries : List Entry)
    (hlog : ∀ entry, q (.log entry) = false) : (noting (entries.map .log) p).Makes q k := by
  induction entries with
  | nil => exact h
  | cons entry entries ih => exact ih.skip (hlog entry)

end Plan

end ComplianceIntake.Identity

namespace ComplianceIntake.Intake

open ComplianceIntake.Event
open ComplianceIntake.Store
open ComplianceIntake.Identity
open ComplianceIntake.Journal
open ComplianceIntake.Metrics

theorem tallies_resolve_for (x : Entity) : (resolveFor x).Tallies := by
  apply (Entity.tallies_resolve x).bind
  intro r
  match r with
  | .ok id => exact Plan.tallies_done _
  | .error (.store error) => exact (Plan.tallies_done _).note rfl
  | .error (.unusable fault) => exact Plan.tallies_done _
  | .error (.unknownSpec hash) => exact Plan.tallies_done _

theorem tallies_resolve_parent (p : Option ParentPolicy) : (resolveParent p).Tallies := by
  cases p with
  | none => exact Plan.tallies_done _
  | some p => exact (tallies_resolve_for _).and_then fun _ => Plan.tallies_done _

theorem tallies_insert_event (record : EventRecord) : (insertEvent record).Tallies := by
  apply Plan.tallies_act (.ask (.insertEvent record)) fun _ => nofun
  intro answer
  cases answer with
  | ok id => exact (Plan.tallies_done _).note rfl
  | error error => exact (Plan.tallies_done _).note rfl

theorem tallies_record (e : ComplianceEvent) : (record e).Tallies := by
  refine (tallies_resolve_for _).and_then fun clusterId => ?_
  refine (tallies_resolve_parent _).and_then fun parentPolicyId => ?_
  refine (tallies_resolve_for _).and_then fun policyId => ?_
  exact (tallies_insert_event _).and_then fun eventId => Plan.tallies_done _

section Sorts

variable {q : Note → Bool} {looked : Bool} {x : Entity} {key : NaturalKey}

theorem makes_resolve_for (hq : Sorts q x.kind looked) (h : x.Keyed key) :
    (resolveFor x).Makes q (if looked then 1 else 0) := by
  refine Plan.Makes.bind (k := 0) (Entity.makes_resolve hq h.key_eq) ?_
  intro r
  match r with
  | .ok id => exact Plan.makes_done _
  | .error (.store error) => exact (Plan.makes_done _).skip (hq.log _)
  | .error (.unusable fault) => exact Plan.makes_done _
  | .error (.unknownSpec hash) => exact Plan.makes_done _

theorem makes_insert_event (hlog : ∀ entry, q (.log entry) = false) (record : EventRecord) :
    (insertEvent record).Makes q 0 := by
  apply Plan.makes_act
  intro answer
  cases answer with
  | ok id => exact (Plan.makes_done _).skip (hlog _)
  | error error => exact (Plan.makes_done _).skip (hlog _)

/-- Recording a valid event looks up its cluster, and then other kinds of records only. -/
theorem makes_record {e : ComplianceEvent} {hash : String} (h : e.Valid hash)
    (hcluster : Sorts q .cluster looked) (hparent : Sorts q .parentPolicy false)
    (hpolicy : Sorts q .policy false) : (record e).Makes q (if looked then 1 else 0) := by
  refine (makes_resolve_for hcluster h.keyed_cluster).and_then fun clusterId => ?_
  refine Plan.Makes.and_then (k := 0) ?_ fun parentPolicyId => ?_
  · cases hp : e.parentPolicy with
    | none => exact Plan.makes_done _
    | some p =>
      exact (makes_resolve_for hparent (h.keyed_parent hp)).and_then fun _ => Plan.makes_done _
  · refine (makes_resolve_for hpolicy h.keyed_policy).and_then fun policyId => ?_
    exact (makes_insert_event hcluster.log _).and_then fun eventId => Plan.makes_done _

end Sorts

theorem plan_eq_bind (p : Posting) :
    ∃ (work : Plan Note Verdict) (requestId : String) (event : Option ComplianceEvent),
      p.plan = work.bind (conclude requestId event) ∧ work.Tallies ∧
      work.Makes Note.isRequest 0 ∧
      work.Makes (Note.isLookup .cluster) (if isOk p.request.accepted then 1 else 0) := by
  cases ha : p.request.accepted with
  | error refusal =>
    obtain ⟨entries,requestId,event,heq⟩ := ingest_of_refusal p.moment p.request refusal ha
    refine ⟨_,requestId,event,heq,(Plan.tallies_done _).logs entries,?_,?_⟩
    · exact (Plan.makes_done _).logs entries fun _ => rfl
    · exact (Plan.makes_done _).logs entries fun _ => rfl
  | ok e =>
    obtain ⟨hash,hv⟩ := p.request.valid_of_accepted e ha
    have hc := hv.completed p.moment.now
    refine ⟨_,_,_,ingest_of_accepted _ _ e hash ha hv,tallies_record _,?_,?_⟩
    · exact makes_record hc (sorts_is_request _) (sorts_is_request _) (sorts_is_request _)
    · exact makes_record hc (sorts_is_lookup _ _) (sorts_is_lookup _ _) (sorts_is_lookup _ _)

/-- What is noted of a posting: work that is in balance, and then the request, once. -/
theorem post_noted (f : Fleet Ledger) (p : Posting) :
    ∃ notes entry,
      (f.post p).notes =
        notes ++ [.request eventsPath "POST" (statusOf (f.post p).value), .log entry] ∧
      Tally notes f.store (f.post p).fleet.store ∧
      notes.countP Note.isRequest = 0 ∧
      notes.countP (Note.isLookup .cluster) = if isOk p.request.accepted then 1 else 0 := by
  obtain ⟨work,requestId,event,hplan,hbalanced,hrequests,hlookups⟩ := plan_eq_bind p
  have hrun := Plan.run_bind p.choice work (conclude requestId event) (f.site p.replica)
  rw [Fleet.post, Fleet.carryOut, hplan]
  simp only [hrun]
  exact ⟨_,_,rfl,hbalanced p.choice _,hrequests p.choice _,hlookups p.choice _⟩

theorem status_of_cases (v : Verdict) :
    isOk v = true ∧ statusOf v = 201 ∨ isOk v = false ∧ (statusOf v = 400 ∨ statusOf v = 500) := by
  cases v with
  | ok receipt => exact Or.inl ⟨rfl,rfl⟩
  | error r =>
    refine Or.inr ⟨rfl,?_⟩
    simp only [statusOf, Refusal.status]
    split
    · exact Or.inr rfl
    · exact Or.inl rfl

theorem outcome_label_status_of (v : Verdict) :
    Registry.outcomeLabel (statusOf v) = if isOk v then "success" else "error" := by
  rcases status_of_cases v with ⟨hv,hs⟩ | ⟨hv,hs | hs⟩ <;> rw [hv, hs] <;> rfl

theorem fingerprint_created_iff (v : Verdict) :
    fingerprint [eventsPath, "POST", toString 201] =
      fingerprint [eventsPath, "POST", toString (statusOf v)] ↔ isOk v = true := by
  rcases status_of_cases v with ⟨hv,hs⟩ | ⟨hv,hs | hs⟩ <;> rw [hv, hs] <;> decide +kernel

theorem fingerprint_outcome_iff (v : Verdict) (ok : Bool) :
    fingerprint [eventsPath, "POST", if ok then "success" else "error"] =
      fingerprint [eventsPath, "POST", Registry.outcomeLabel (statusOf v)] ↔ isOk v = ok := by
  rw [outcome_label_status_of]
  cases isOk v <;> cases ok <;> decide +kernel

/-- The counts of lookups and attempts agree with each other, with the calls that a ledger counted
and with the number of requests that passed. -/
structure Balances (r : Registry) (l : Ledger) (passed : Nat) : Prop where
  misses : ∀ kind, r.lookupCount kind false =
    r.getOrCreateCount kind true + r.getOrCreateCount kind false
  calls : r.getOrCreateCount .cluster true + r.getOrCreateCount .parentPolicy true
    + r.getOrCreateCount .policy true = l.getOrCreateCalls
  lookups : r.lookupCount .cluster true + r.lookupCount .cluster false = passed

/-- Balanced notes keep the registry that counts them balanced, whatever requests are among
them. -/
theorem Balances.absorb_all {r : Registry} {l l' : Ledger} {passed k : Nat} {notes : List Note}
    (h : Balances r l passed) (nanoseconds : Nat) (ht : Tally notes l l')
    (hk : notes.countP (Note.isLookup .cluster) = k) :
    Balances (r.absorbAll nanoseconds notes) l' (passed + k) := by
  rw [count_p_is_lookup] at hk
  constructor
  · intro kind
    rw [Registry.lookup_count_absorb_all, Registry.get_or_create_count_absorb_all,
      Registry.get_or_create_count_absorb_all, h.misses kind, ht.misses kind]
    omega
  · simp only [Registry.get_or_create_count_absorb_all]
    rw [ht.calls, ← h.calls, obtained]
    omega
  · rw [Registry.lookup_count_absorb_all, Registry.lookup_count_absorb_all, ← h.lookups]
    omega

theorem Balances.observe_request {r : Registry} {l : Ledger} {passed : Nat}
    (h : Balances r l passed) (route method : String) (status nanoseconds : Nat) :
    Balances (r.observeRequest route method status nanoseconds) l passed :=
  ⟨h.misses,h.calls,h.lookups⟩

/-- The requests for ingestion are counted once each, and those that left a row as created. -/
structure Counts (r : Registry) (rows posted : Nat) : Prop where
  created : r.requestCount eventsPath "POST" 201 = rows
  succeeded : r.durationCount eventsPath "POST" "success" = rows
  /-- A sample is named by the values seen first, so the total could miss what is counted in it. -/
  within : r.requests.Within [eventsPath, "POST"]
  total : r.requestTotal eventsPath "POST" = posted
  durations : r.durationCount eventsPath "POST" "success"
    + r.durationCount eventsPath "POST" "error" = posted

theorem Counts.absorb_all {r : Registry} {rows posted : Nat} {notes : List Note}
    (h : Counts r rows posted) (nanoseconds : Nat) (hno : notes.countP Note.isRequest = 0) :
    Counts (r.absorbAll nanoseconds notes) rows posted := by
  have hnone : ∀ route method status, Note.request route method status ∉ notes :=
    fun route method status hm => absurd rfl (List.countP_eq_zero.mp hno _ hm)
  obtain ⟨hreq,hdur⟩ := r.absorb_all_of_no_request nanoseconds hnone
  constructor
  · rw [Registry.requestCount, hreq]
    exact h.created
  · rw [Registry.durationCount, hdur]
    exact h.succeeded
  · rw [hreq]
    exact h.within
  · rw [Registry.requestTotal, hreq]
    exact h.total
  · rw [Registry.durationCount, Registry.durationCount, hdur]
    exact h.durations

theorem duration_count_observe_request (r : Registry) (v : Verdict) (nanoseconds : Nat)
    (ok : Bool) :
    (r.observeRequest eventsPath "POST" (statusOf v) nanoseconds).durationCount eventsPath "POST"
        (if ok then "success" else "error") =
      r.durationCount eventsPath "POST" (if ok then "success" else "error") +
        if isOk v = ok then 1 else 0 := by
  simp only [Registry.durationCount, Registry.observeRequest, Samples.observations_change,
    fingerprint_outcome_iff]

theorem Counts.observe_request {r : Registry} {rows posted : Nat} (h : Counts r rows posted)
    (v : Verdict) (nanoseconds : Nat) :
    Counts (r.observeRequest eventsPath "POST" (statusOf v) nanoseconds)
      (rows + if isOk v then 1 else 0) (posted + 1) := by
  have hsuccess := duration_count_observe_request r v nanoseconds true
  have herror := duration_count_observe_request r v nanoseconds false
  simp only [if_true, Bool.false_eq_true, if_false] at hsuccess herror
  have hwithin : (r.observeRequest eventsPath "POST" (statusOf v) nanoseconds).requests.Within
      [eventsPath, "POST"] := h.within.change rfl
  refine ⟨?_,?_,hwithin,?_,?_⟩
  · rw [← h.created]
    simp only [Registry.requestCount, Registry.observeRequest, Samples.count_change,
      fingerprint_created_iff]
  · rw [hsuccess, h.succeeded]
  · rw [Registry.requestTotal, hwithin.total, Registry.observeRequest, Samples.sum_change,
      ← h.within.total]
    exact congrArg (· + 1) h.total
  · rw [hsuccess, herror, ← h.durations]
    cases isOk v <;> simp <;> omega

theorem length_events_post (f : Fleet Ledger) (p : Posting) :
    (f.post p).fleet.store.tables.events.length =
      f.store.tables.events.length + if isOk (f.post p).value then 1 else 0 := by
  rw [Run.events_post, List.length_append]
  cases (f.post p).value <;> rfl

namespace Observed

structure Accounts (o : Observed) : Prop where
  balances : Balances o.registry o.run.fleet.store
    (o.run.replies.countP fun reply => isOk reply.1.request.accepted)
  counts : Counts o.registry o.run.fleet.store.tables.events.length o.run.replies.length

theorem accounts_new (caches : Nat → Cache) : (new caches).Accounts :=
  ⟨⟨fun _ => rfl,rfl,rfl⟩,⟨rfl,rfl,fun _ h => absurd h List.not_mem_nil,rfl,rfl⟩⟩

theorem Accounts.post {o : Observed} (h : o.Accounts) (nanoseconds : Nat) (p : Posting) :
    (o.move nanoseconds (.post p)).Accounts := by
  obtain ⟨notes,entry,hnotes,htally,hrequests,hlookups⟩ := post_noted o.run.fleet p
  have hregistry : (o.move nanoseconds (.post p)).registry =
      (o.registry.absorbAll nanoseconds notes).observeRequest eventsPath "POST"
        (statusOf (o.run.fleet.post p).value) nanoseconds := by
    show o.registry.absorbAll nanoseconds (o.run.fleet.post p).notes = _
    rw [hnotes, Registry.absorb_all_append]
    rfl
  constructor
  · rw [hregistry]
    have hpassed : (o.move nanoseconds (.post p)).run.replies.countP
        (fun reply => isOk reply.1.request.accepted) =
        (o.run.replies.countP fun reply => isOk reply.1.request.accepted) +
          if isOk p.request.accepted then 1 else 0 :=
      List.countP_append.trans (congrArg _ List.countP_singleton)
    rw [hpassed]
    exact (h.balances.absorb_all nanoseconds htally hlookups).observe_request _ _ _ _
  · have hevents : (o.move nanoseconds (.post p)).run.fleet.store.tables.events.length =
        o.run.fleet.store.tables.events.length + if isOk (o.run.fleet.post p).value then 1 else 0 :=
      length_events_post o.run.fleet p
    have hposted : (o.move nanoseconds (.post p)).run.replies.length = o.run.replies.length + 1 :=
      List.length_append
    rw [hregistry, hevents, hposted]
    exact (h.counts.absorb_all nanoseconds hrequests).observe_request _ nanoseconds

theorem Accounts.move {o : Observed} (h : o.Accounts) (nanoseconds : Nat) (m : Move) :
    (o.move nanoseconds m).Accounts := by
  cases m with
  | post p => exact h.post nanoseconds p
  | setAvailable on => exact ⟨⟨h.balances.misses,h.balances.calls,h.balances.lookups⟩,h.counts⟩

theorem Accounts.moves {o : Observed} (h : o.Accounts) (ms : List (Nat × Move)) :
    (o.moves ms).Accounts := by
  induction ms generalizing o with
  | nil => exact h
  | cons m ms ih => exact ih (h.move m.1 m.2)

end Observed

def Move.posting? : Move → Option Posting
  | .post p => some p
  | .setAvailable _ => none

theorem Observed.postings_moves (o : Observed) (ms : List (Nat × Move)) :
    (o.moves ms).run.replies.map (·.1) =
      o.run.replies.map (·.1) ++ ms.filterMap (·.2.posting?) := by
  induction ms generalizing o with
  | nil => exact (List.append_nil _).symm
  | cons m ms ih =>
    obtain ⟨nanoseconds,m⟩ := m
    refine (ih (o.move nanoseconds m)).trans ?_
    cases m with
    | post p =>
      show (o.run.replies ++ [(p, _)]).map _ ++ _ = _
      simp [Move.posting?]
    | setAvailable on => rfl

/-- From a fresh registry and an empty ledger the metrics account for every run of postings and
switches of availability, whatever the caches hold at its start. -/
theorem metrics_account (caches : Nat → Cache) (ms : List (Nat × Move)) :
    let o := (Observed.new caches).moves ms
    let r := o.registry
    let l := o.run.fleet.store
    let postings := ms.filterMap (·.2.posting?)
    (∀ kind, r.lookupCount kind false =
      r.getOrCreateCount kind true + r.getOrCreateCount kind false) ∧
    r.getOrCreateCount .cluster true + r.getOrCreateCount .parentPolicy true
      + r.getOrCreateCount .policy true = l.getOrCreateCalls ∧
    r.lookupCount .cluster true + r.lookupCount .cluster false =
      postings.countP (fun p => isOk p.request.accepted) ∧
    r.requestCount eventsPath "POST" 201 = l.tables.events.length ∧
    r.requestCount eventsPath "POST" 201 = r.durationCount eventsPath "POST" "success" ∧
    r.requestTotal eventsPath "POST" = postings.length ∧
    r.requestTotal eventsPath "POST" = r.durationCount eventsPath "POST" "success"
      + r.durationCount eventsPath "POST" "error" := by
  intro o r l postings
  obtain ⟨hb,hc⟩ := (Observed.accounts_new caches).moves ms
  have hpostings : o.run.replies.map (·.1) = postings :=
    Observed.postings_moves (Observed.new caches) ms
  have hpassed : postings.countP (fun p => isOk p.request.accepted) =
      o.run.replies.countP fun reply => isOk reply.1.request.accepted := by
    rw [← hpostings, List.countP_map]
    rfl
  have hposted : postings.length = o.run.replies.length := by
    rw [← hpostings, List.length_map]
  refine ⟨hb.misses,hb.calls,?_,hc.created,hc.created.trans hc.succeeded.symm,?_,?_⟩
  · rw [hpassed]
    exact hb.lookups
  · rw [hposted]
    exact hc.total
  · exact hc.total.trans hc.durations.symm

end ComplianceIntake.Intake
