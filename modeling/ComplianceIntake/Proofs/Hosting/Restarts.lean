import ComplianceIntake.Hosting.Serving
import ComplianceIntake.Proofs.Intake.Assignments
import ComplianceIntake.Proofs.Intake.Receipts

/-!
# Restarts with another ledger

The cache belongs to the server and outlives its runs, while each run has the
ledger it was started with. An entry that one run left is stale in a later run
whose ledger has another id for the key, or none. A request whose keys have such
an entry is answered with its id, and so is its event recorded; otherwise the ids
are those of the current ledger. As long as all runs have the same ledger, no
entry is ever stale.
-/

set_option autoImplicit false

namespace ComplianceIntake.Intake

open ComplianceIntake.Event
open ComplianceIntake.Store
open ComplianceIntake.Identity
open ComplianceIntake.Journal

def Idle (choice : SpecChoice) (p : Plan Note Response) : Prop :=
  ∀ s : Site Ledger, ∃ response, p.result choice s = (response, s) ∧ response.status ≠ 201

variable (choice : SpecChoice)

theorem idle_done {response : Response} (h : response.status ≠ 201) :
    Idle choice (.done response) :=
  fun _ => ⟨response,rfl,h⟩

theorem idle_answer_get (route : Route) : Idle choice (answerGet route) := by
  cases route with
  | health => exact idle_done choice (by decide)
  | metrics => exact idle_done choice (by decide)
  | events => exact idle_done choice (by decide)
  | readiness =>
    intro s
    have hstatus : ∀ ready, (readiness ready).status ≠ 201 := by decide
    have hping : ∃ pinged, (Plan.ask (ν := Note) .ping).result choice s = (pinged, s) := by
      cases hon : s.store.available with
      | true => exact ⟨_,perform_ask choice .ping hon⟩
      | false => exact ⟨_,perform_ask_unavailable choice .ping hon⟩
    obtain ⟨pinged,hpinged⟩ := hping
    rw [answerGet, Plan.result_bind, hpinged]
    exact ⟨_,rfl,hstatus _⟩

theorem idle_answer_read_only (route : Route) (method : String) :
    Idle choice (answerReadOnly route method) := by
  unfold answerReadOnly
  split
  · exact idle_answer_get choice route
  · split
    · intro s
      obtain ⟨response,hres,hstatus⟩ := idle_answer_get choice route s
      rw [Plan.result_bind, hres]
      exact ⟨_,rfl,hstatus⟩
    · exact idle_done choice (by decide)

/-- A request has left its event in the ledger, in a row for which ids were taken for its keys. -/
structure Stored (r : Request) (e : ComplianceEvent) (hash : String) (receipt : Receipt)
    (s s' : Site Ledger) : Prop where
  accepted : r.accepted = .ok e
  identified : e.policy.Identified hash
  parent : receipt.parentPolicyId.isSome = e.parentPolicy.isSome
  assigned : ∃ t, Assigned ((e.keys hash).zip receipt.row.record.ids) s.cache s.store.tables
    s'.cache t ∧ receipt.row.id = (t.insertEvent receipt.row.record).1 ∧
    s'.store.tables = (t.insertEvent receipt.row.record).2

theorem events_of_assigned {xs : List (NaturalKey × Int)} {c c' : Cache} {t t' : Tables}
    (h : Assigned xs c t c' t') : t'.events = t.events := by
  induction h with
  | nil c t => rfl
  | hit _ _ ih => exact ih
  | miss _ _ ih => rw [ih, Tables.events_get_or_create]

namespace Stored

variable {r : Request} {e : ComplianceEvent} {hash : String} {receipt : Receipt}
  {s s' : Site Ledger}

theorem last (h : Stored r e hash receipt s s') :
    s'.store.tables.events = s.store.tables.events ++ [receipt.row] := by
  obtain ⟨t,hx,hid,ht⟩ := h.assigned
  rw [ht, ← events_of_assigned hx]
  show t.events ++ [⟨(t.insertEvent receipt.row.record).1, receipt.row.record⟩] = _
  rw [← hid]

theorem id?_eq_iff (h : Stored r e hash receipt s s') :
    ∀ x ∈ (e.keys hash).zip receipt.row.record.ids,
      s'.store.tables.id? x.1 = some x.2 ↔ ¬ s.cache.Stale s.store.tables x.1 := by
  obtain ⟨t,hx,_,ht⟩ := h.assigned
  have hlength : (e.keys hash).length = receipt.row.record.ids.length := by
    simp [ComplianceEvent.keys, EventRecord.ids, Receipt.row, Option.length_toList, h.parent]
  have hkeys : (((e.keys hash).zip receipt.row.record.ids).map (·.1)).Nodup := by
    rw [List.map_fst_zip hlength.le]
    exact e.nodup_keys hash
  rw [ht]
  exact hx.id?_eq_iff hkeys

end Stored

def Unrecorded (p : Plan Note Response) (s : Site Ledger) : Prop :=
  ∃ response s' xs, p.result choice s = (response, s') ∧ response.status ≠ 201 ∧
    Assigned xs s.cache s.store.tables s'.cache s'.store.tables

theorem Idle.unrecorded {p : Plan Note Response} (h : Idle choice p) (s : Site Ledger) :
    Unrecorded choice p s := by
  obtain ⟨response,hres,hstatus⟩ := h s
  exact ⟨response,s,[],hres,hstatus,.nil _ _⟩

theorem status_response_of_error (refusal : Refusal) :
    (responseOf (.error refusal)).status ≠ 201 := by
  show refusal.status ≠ 201
  unfold Refusal.status
  split <;> decide

/-- The response to a posted event, whatever the cache holds. -/
theorem ingest_stored (m : Moment) (r : Request) (s : Site Ledger) :
    (∃ e hash receipt s', ((ingest m r).bind fun v => .done (responseOf v)).result choice s =
        (.ofJson 201 receipt.tree, s') ∧ Stored r e hash receipt s s') ∨
      Unrecorded choice ((ingest m r).bind fun v => .done (responseOf v)) s := by
  unfold Unrecorded
  rw [Plan.result_bind]
  cases ha : r.accepted with
  | error refusal =>
    obtain ⟨notes,hn⟩ := ingest_of_refused m r refusal ha
    rw [hn, Plan.result_noting]
    exact Or.inr ⟨_,s,[],rfl,status_response_of_error refusal,.nil _ _⟩
  | ok e =>
    obtain ⟨hash,hv⟩ := r.valid_of_accepted e ha
    rw [ingest_of_accepted m r e hash ha hv, Plan.result_bind]
    rcases record_assigned choice (hv.completed m.now) s with
      ⟨receipt,s',t,hres,hparent,hx,hid,ht,_⟩ | ⟨refusal,s',xs,hres,hx⟩
    · rw [hres]
      have hidentified := Policy.identified_of_identifying_hash hv.identifying
      exact Or.inl ⟨e,hash,receipt,s',rfl,ha,hidentified,hparent,t,hx,hid,ht⟩
    · rw [hres]
      exact Or.inr ⟨_,s',xs,rfl,status_response_of_error refusal,hx⟩

theorem answer_stored (m : Moment) (r : Request) (s : Site Ledger) :
    (∃ e hash receipt s', (answer m r).result choice s = (.ofJson 201 receipt.tree, s') ∧
      Stored r e hash receipt s s') ∨ Unrecorded choice (answer m r) s := by
  unfold answer
  split
  · exact Or.inr ((idle_done choice (by decide)).unrecorded choice s)
  · unfold answerEvents
    split
    · exact ingest_stored choice m r s
    · split
      · exact Or.inr ((idle_done choice (by decide)).unrecorded choice s)
      · exact Or.inr ((idle_done choice (by decide)).unrecorded choice s)
  · exact Or.inr ((idle_answer_read_only choice _ _).unrecorded choice s)

/-- What a request newly remembers is in the tables that it leaves. -/
theorem mem_entries_answer (m : Moment) (r : Request) (s : Site Ledger) {key : NaturalKey}
    {id : Int} (hm : (key, id) ∈ ((answer m r).result choice s).2.cache.entries) :
    (key, id) ∈ s.cache.entries ∨
      ((answer m r).result choice s).2.store.tables.id? key = some id := by
  rcases answer_stored choice m r s with
    ⟨e,hash,receipt,s',hres,hstored⟩ | ⟨response,s',xs,hres,_,hx⟩
  · rw [hres] at hm ⊢
    obtain ⟨t,hx,_,ht⟩ := hstored.assigned
    rw [ht]
    exact hx.mem_entries hm
  · rw [hres] at hm ⊢
    exact hx.mem_entries hm

end ComplianceIntake.Intake

namespace ComplianceIntake.Hosting

open ComplianceIntake.Event
open ComplianceIntake.Store
open ComplianceIntake.Identity
open ComplianceIntake.Intake
open ComplianceIntake.Network
open ComplianceIntake.Text

namespace Serving

/-- Every entry of the cache is the id that a ledger of some run has for the key. -/
structure Sourced (started : Nat → Prop) (s : Serving) : Prop where
  running : ∀ run, s.server.running = some run → started run.store
  entries : ∀ key id, (key, id) ∈ s.server.cache.entries →
    ∃ i, started i ∧ (s.ledgers i).tables.id? key = some id

variable {started : Nat → Prop} {s : Serving}

def leave (s : Serving) (run : Run Nat) (site : Site Ledger) : Serving where
  server := { s.server with cache := site.cache }
  ledgers := (s.setLedger run.store site.store).ledgers

theorem ledgers_leave_self (s : Serving) (run : Run Nat) (site : Site Ledger) :
    (s.leave run site).ledgers run.store = site.store :=
  if_pos rfl

theorem ledgers_leave_of_ne (s : Serving) {run : Run Nat} (site : Site Ledger) {i : Nat}
    (h : i ≠ run.store) : (s.leave run site).ledgers i = s.ledgers i :=
  if_neg h

theorem request_of_running {run : Run Nat} (h : s.server.running = some run) (m : Moment)
    (choice : SpecChoice) (r : Request) :
    s.request m choice r =
      (some ((answer m r).result choice (s.site run)).1,
        s.leave run ((answer m r).result choice (s.site run)).2) := by
  rw [request, h]
  rfl

theorem Sourced.request (h : s.Sourced started) (m : Moment) (choice : SpecChoice) (r : Request) :
    (s.request m choice r).2.Sourced started := by
  cases hrun : s.server.running with
  | none =>
    rw [Serving.request, hrun]
    exact h
  | some run =>
    rw [request_of_running hrun]
    refine ⟨h.running,?_⟩
    intro key id hm
    rcases mem_entries_answer choice m r (s.site run) hm with hm | hid
    · obtain ⟨i,hi,hid⟩ := h.entries key id hm
      refine ⟨i,hi,?_⟩
      by_cases hcurrent : i = run.store
      · have hgrows := (answer m r).grows_result choice (s.site run)
        rw [hcurrent] at hid ⊢
        rw [ledgers_leave_self]
        exact hgrows.ids key id hid
      · rw [ledgers_leave_of_ne s _ hcurrent]
        exact hid
    · exact ⟨run.store,h.running run hrun,by rwa [ledgers_leave_self]⟩

theorem Sourced.start_with (h : s.Sourced started) {i : Nat} (hi : started i)
    (bound : Except String SocketAddress) (unread : Option String) :
    (s.obey (.startWith i bound unread)).Sourced started := by
  rw [Serving.obey, Server.startWith]
  split
  · exact h
  · cases bound with
    | error detail => exact h
    | ok address =>
      cases unread with
      | some detail => exact h
      | none =>
        refine ⟨?_,h.entries⟩
        intro run hrun
        cases hrun
        exact hi

theorem Sourced.stop (h : s.Sourced started) (join : Join) :
    (s.obey (.stop join)).Sourced started := by
  rw [Serving.obey, Server.stop]
  split
  · exact h
  · exact ⟨fun _ hrun => (nomatch hrun),h.entries⟩

theorem Sourced.obey (h : s.Sourced started) (c : Command)
    (hc : ∀ i bound unread, c = .startWith i bound unread → started i) :
    (s.obey c).Sourced started := by
  cases c with
  | startWith i bound unread => exact h.start_with (hc i bound unread rfl) bound unread
  | stop join => exact h.stop join
  | request m choice r => exact h.request m choice r

theorem Sourced.obey_all (h : s.Sourced started) {cs : List Command}
    (hc : ∀ i bound unread, .startWith i bound unread ∈ cs → started i) :
    (s.obeyAll cs).Sourced started := by
  induction cs generalizing s with
  | nil => exact h
  | cons c cs ih =>
    have hfirst := h.obey c fun i bound unread hi => hc i bound unread (hi ▸ List.mem_cons_self)
    exact ih hfirst fun i bound unread hi => hc i bound unread (List.mem_cons_of_mem c hi)

theorem sourced_new (address : SocketAddress) (ledgers : Nat → Ledger) (started : Nat → Prop) :
    (new address ledgers).Sourced started :=
  ⟨fun _ h => (nomatch h),fun _ _ h => absurd h List.not_mem_nil⟩

/-- A life in which all runs have one ledger leaves no stale entry. -/
theorem Sourced.not_stale {i : Nat} (h : s.Sourced (· = i)) (key : NaturalKey) :
    ¬ s.server.cache.Stale (s.ledgers i).tables key := by
  have hagrees : s.server.cache.Agrees (s.ledgers i).tables := by
    intro key id hm
    obtain ⟨j,rfl,hid⟩ := h.entries key id hm
    exact hid
  exact hagrees.not_stale key

/-- The event of a request is in the last row of the ledger, and its receipt was sent. Of the ids
in the row those are right for whose keys no stale entry was in the cache. -/
structure Served (r : Request) (response : Response) (c : Cache) (before after : Tables)
    (e : ComplianceEvent) (hash : String) (receipt : Receipt) : Prop where
  accepted : r.accepted = .ok e
  identified : e.policy.Identified hash
  response : response = .ofJson 201 receipt.tree
  parent : receipt.parentPolicyId.isSome = e.parentPolicy.isSome
  last : after.events = before.events ++ [receipt.row]
  right_iff : ∀ x ∈ (e.keys hash).zip receipt.row.record.ids,
    after.id? x.1 = some x.2 ↔ ¬ c.Stale before x.1

/-- After any life of a server, with ledgers of any content, a request that is answered with status
201 is answered with an id of the current ledger for each of its keys that has no stale entry, and
for no other. Where all runs had the current ledger, no entry is stale and all ids are right. -/
theorem created_right_iff (address : SocketAddress) (ledgers : Nat → Ledger) (cs : List Command)
    (m : Moment) (choice : SpecChoice) (r : Request) {run : Run Nat} {response : Response}
    (hrun : ((new address ledgers).obeyAll cs).server.running = some run)
    (hresponse : (((new address ledgers).obeyAll cs).request m choice r).1 = some response)
    (hstatus : response.status = 201) :
    let before := (new address ledgers).obeyAll cs
    let after := (before.request m choice r).2
    ∃ e hash receipt,
      Served r response before.server.cache (before.ledgers run.store).tables
        (after.ledgers run.store).tables e hash receipt ∧
      ((∀ i bound unread, .startWith i bound unread ∈ cs → i = run.store) →
        ∀ x ∈ (e.keys hash).zip receipt.row.record.ids,
          (after.ledgers run.store).tables.id? x.1 = some x.2) := by
  intro before after
  have hafter : after = before.leave run ((answer m r).result choice (before.site run)).2 :=
    congrArg Prod.snd (request_of_running hrun m choice r)
  have hledger : after.ledgers run.store =
      ((answer m r).result choice (before.site run)).2.store := by
    rw [hafter, ledgers_leave_self]
  rw [request_of_running hrun] at hresponse
  have hsent : ((answer m r).result choice (before.site run)).1 = response :=
    Option.some.inj hresponse
  rcases answer_stored choice m r (before.site run) with
    ⟨e,hash,receipt,s',hres,hstored⟩ | ⟨other,s',xs,hres,hnot,_⟩
  · rw [hres] at hsent hledger
    have hright := hstored.id?_eq_iff
    have hlast := hstored.last
    rw [← hledger] at hright hlast
    refine ⟨e,hash,receipt,⟨hstored.accepted,hstored.identified,hsent.symm,hstored.parent,hlast,
      hright⟩,?_⟩
    intro hone x hx
    have hsourced : before.Sourced (· = run.store) :=
      (sourced_new address ledgers _).obey_all hone
    exact (hright x hx).mpr (hsourced.not_stale x.1)
  · rw [hres] at hsent
    rw [← hsent] at hstatus
    exact absurd hstatus hnot

def loopback : SocketAddress := ⟨.v4 [127, 0, 0, 1], 8080⟩

def morning : Moment := ⟨"2024-02-01T10:00:00Z", "01"⟩

def parentless : Request := { body := octets "[[\"c\"],null,[\"q\",\"n\",\"1\"]]" }

def restarted (ledger : Nat) : Serving :=
  (new loopback fun _ => {}).obeyAll
    [.startWith 0 (.ok loopback), .request morning .first parentless, .stop .finished,
      .startWith ledger (.ok loopback)]

theorem created_right_of_same_ledger :
    let after := ((restarted 0).request morning .first parentless).2
    ∃ e hash, ∃ receipt : Receipt, parentless.accepted = .ok e ∧
      (after.ledgers 0).tables.events = ((restarted 0).ledgers 0).tables.events ++ [receipt.row] ∧
      ∀ x ∈ (e.keys hash).zip receipt.row.record.ids,
        (after.ledgers 0).tables.id? x.1 = some x.2 := by
  intro after
  have hstatus : ((restarted 0).request morning .first parentless).1.map (·.status) = some 201 := by
    decide +kernel
  obtain ⟨response,hresponse,hcreated⟩ := Option.map_eq_some_iff.mp hstatus
  have hrun : (restarted 0).server.running = some ⟨loopback, 0⟩ := by decide +kernel
  obtain ⟨e,hash,receipt,hserved,hright⟩ :=
    created_right_iff loopback _ _ morning .first parentless hrun hresponse hcreated
  refine ⟨e,hash,receipt,hserved.accepted,hserved.last,hright ?_⟩
  intro i bound unread hm
  simp only [List.mem_cons, Command.startWith.injEq, reduceCtorEq, false_or, List.not_mem_nil,
    or_false] at hm
  rcases hm with ⟨rfl,_⟩ | ⟨rfl,_⟩ <;> rfl

/-- The second ledger holds neither a cluster nor a policy, yet its event refers to both: their ids
are those of the first ledger. -/
theorem stale_after_restart :
    let after := ((restarted 1).request morning .first parentless).2
    (restarted 1).server.running = some ⟨loopback, 1⟩ ∧
      ((restarted 1).request morning .first parentless).1.map (·.status) = some 201 ∧
      (after.ledgers 1).tables.events.map (fun row => (row.record.clusterId, row.record.policyId)) =
        [(1, 2)] ∧
      (after.ledgers 1).tables.id? (.cluster ⟨"c"⟩) = none ∧
      (after.ledgers 1).tables.policies = [] := by
  decide +kernel

end Serving

end ComplianceIntake.Hosting
