import ComplianceIntake.Proofs.Event.Echoes
import ComplianceIntake.Proofs.Event.RoundTrip
import ComplianceIntake.Proofs.Intake.Receipts

/-!
# Sending a response back

The body of a response with status 201 is itself an event, which comes with its
hash alone. Sent back later in the run, to whichever replica, it is answered as
before under a new event id, and adds no row but that of the event: the hash is
known by then and so are all keys. This needs metadata that last; any others
make the text that was written one that cannot be read.
-/

set_option autoImplicit false

namespace ComplianceIntake.Identity

open ComplianceIntake.Event
open ComplianceIntake.Store

theorem Obtained.rows_eq {d : Draft} {c c' : Cache} {t t' : Tables} {id : Int}
    (h : Obtained d c t id c' t') (hk : (t.id? d.key).isSome) : t'.rows = t.rows := by
  cases h with
  | hit h => rfl
  | miss h =>
    obtain ⟨known,hknown⟩ := Option.isSome_iff_exists.mp hk
    simp only [Tables.getOrCreate, hknown, Tables.rows_update]

theorem ObtainedAll.rows_eq {ds : List Draft} {c c' : Cache} {t t' : Tables}
    (h : ObtainedAll ds c t c' t') (hk : ∀ d ∈ ds, (t.id? d.key).isSome) : t'.rows = t.rows := by
  induction h with
  | nil c t => rfl
  | @cons d ds _ _ _ _ t t' _ hd _ ih =>
    have hrows : t'.rows = t.rows := hd.rows_eq (hk d List.mem_cons_self)
    have hrest : ∀ d' ∈ ds, (t'.id? d'.key).isSome := by
      intro d' hd'
      rw [Tables.id?_eq_find?, hrows, ← Tables.id?_eq_find?]
      exact hk d' (List.mem_cons_of_mem d hd')
    exact (ih hrest).trans hrows

end ComplianceIntake.Identity

namespace ComplianceIntake.Event

open ComplianceIntake.Store

namespace ComplianceEvent

variable {e : ComplianceEvent} {now hash : String} {t : Tables} {r s : Receipt}

/-- A receipt is as true for its own event as for the one that was sent. -/
theorem Recorded.echo (h : e.Recorded now hash t r) (later : String) :
    r.event.Recorded later hash t r := by
  rw [h.event]
  exact ⟨h.event,h.cluster,h.parent,h.policy,h.row⟩

theorem rel_unique {α β : Type} {R : α → β → Prop} {x : Option α} {y z : Option β}
    (hy : Option.Rel R x y) (hz : Option.Rel R x z) (h : ∀ a b c, R a b → R a c → b = c) :
    y = z := by
  cases hy with
  | none =>
    cases hz
    rfl
  | some hb =>
    cases hz with
    | some hc => exact congrArg some (h _ _ _ hb hc)

theorem exists_of_rel_some {α β : Type} {R : α → β → Prop} {a : α} {y : Option β}
    (h : Option.Rel R (some a) y) : ∃ b, y = some b ∧ R a b := by
  cases h with
  | some hb => exact ⟨_,rfl,hb⟩

/-- Receipts for one event differ in the event's id only. -/
theorem Recorded.unique (hr : e.Recorded now hash t r) (hs : e.Recorded now hash t s) :
    s = { r with eventId := s.eventId } := by
  have hcluster : s.clusterId = r.clusterId := Option.some.inj (hs.cluster.symm.trans hr.cluster)
  have hpolicy : s.policyId = r.policyId := Option.some.inj (hs.policy.symm.trans hr.policy)
  have hparent : s.parentPolicyId = r.parentPolicyId :=
    rel_unique hs.parent hr.parent fun _ _ _ hi hj => Option.some.inj (hi.symm.trans hj)
  have hevent : s.event = r.event := hs.event.trans hr.event.symm
  cases s
  cases hcluster
  cases hpolicy
  cases hparent
  cases hevent
  rfl

/-- All rows that the event needs are there. -/
theorem Recorded.is_some_id? (h : e.Recorded now hash t r) (spec : String) :
    ∀ d ∈ e.ownerDrafts ++ [.policy (e.policy.keyWith hash) spec], (t.id? d.key).isSome := by
  intro d hd
  rcases List.mem_append.mp hd with hd | hd
  · rcases List.mem_cons.mp hd with rfl | hd
    · exact Option.isSome_iff_exists.mpr ⟨_,h.cluster⟩
    · obtain ⟨p,hp,rfl⟩ := Option.map_eq_some_iff.mp (Option.mem_toList.mp hd)
      obtain ⟨id,_,hid⟩ := exists_of_rel_some (hp ▸ h.parent)
      exact Option.isSome_iff_exists.mpr ⟨id,hid⟩
  · rw [List.mem_singleton.mp hd]
    exact Option.isSome_iff_exists.mpr ⟨_,h.policy⟩

end ComplianceEvent

end ComplianceIntake.Event

namespace ComplianceIntake.Intake

open ComplianceIntake.Event
open ComplianceIntake.Store
open ComplianceIntake.Identity
open ComplianceIntake.Text (octets)

variable {f : Fleet Ledger} {p q : Posting} {t : Tables} {hash : String} {r : Receipt}

theorem echo_of_answered (h : p.Answered t r) (hi : r.event.Integral)
    (hclock : Timestamp.Accepted p.moment.now) :
    ∃ hash, r.event.Recorded p.moment.now hash t r ∧ r.event.Valid hash ∧
      r.event.validate = .ok () ∧ r.event.details.Rereadable := by
  obtain ⟨e,hash,ha,hv,hrec⟩ := h
  obtain ⟨body,_,hread,hvalid⟩ := (p.request.accepted_eq_ok_iff e).mp ha
  obtain ⟨u,_,hu⟩ := Option.bind_eq_some_iff.mp hread
  have hecho := hrec.echo p.moment.now
  rw [hrec.event] at hi hecho ⊢
  have hre := ComplianceEvent.rereadable_of_of_tree? hu hi
  exact ⟨hash,hecho,hv.echo p.moment.now,ComplianceEvent.validate_echo hvalid hv hclock,hre⟩

theorem lasts_of_answered (h : p.Answered t r) {u : Json.Tree}
    (hu : Json.readTree? p.body = some u) (hunmarked : u.Unmarked) : r.event.Lasts := by
  obtain ⟨e,hash,ha,_,hrec⟩ := h
  obtain ⟨body,hbody,hread,_⟩ := (p.request.accepted_eq_ok_iff e).mp ha
  obtain ⟨rfl,_⟩ := (p.request.read_body_eq_ok_iff body).mp hbody
  obtain ⟨v,hv,he⟩ := Option.bind_eq_some_iff.mp hread
  cases hv.symm.trans hu
  have hlasts : e.Lasts := ComplianceEvent.lasts_of_unmarked he hunmarked
  rw [hrec.event]
  exact hlasts

/-- The event of a receipt is recorded again, under another id, and no other row is added. -/
theorem post_echo (hf : f.Kept Tables.Sound) (hon : f.store.available = true)
    (hr : r.event.Recorded p.moment.now hash f.store.tables r) (hv : r.event.Valid hash)
    (ha : q.request.accepted = .ok r.event) :
    ∃ eventId, (f.post q).value = .ok { r with eventId := eventId } ∧
      (∀ x ∈ f.store.tables.issued, x.2 < eventId) ∧
      (f.post q).fleet.store.tables.rows = f.store.tables.rows := by
  have hecho := hr.echo q.moment.now
  have hknown : f.store.tables.Knows hash := Tables.knows_of_row hr.policy
  rcases post_obtains hf hon ha hv with ⟨s,hval,hrecords,_⟩ | ⟨_,_,_,hunknown⟩
  · obtain ⟨hs,_⟩ := recorded_of_post hf ha hv hval
    obtain ⟨_,hgrows,_⟩ := Run.kept_post preserved_sound (entitles_all _ q) hf
    have hsame : s = { r with eventId := s.eventId } := (hecho.mono hgrows).unique hs
    have hfresh := hrecords.fresh hf.tables
    obtain ⟨spec,t,_,hgains,htables,_⟩ := hrecords
    have hrows : (f.post q).fleet.store.tables.rows = t.rows := by
      rw [htables]
      rfl
    exact ⟨s.eventId,hval.trans (congrArg _ hsame),hfresh,
      hrows.trans (hgains.obtained.rows_eq (hecho.is_some_id? spec))⟩
  · exact absurd hknown hunknown

/-- A receipt whose event is not read again is refused, and nothing happens. -/
theorem post_lost (f : Fleet Ledger) (hre : r.event.details.Rereadable)
    (hlost : r.event.reread = none) (hq : q.request.readBody = .ok (octets r.tree.text)) :
    (f.post q).value = .error .malformed ∧ (f.post q).fleet = f := by
  apply post_of_refused
  simp only [Request.accepted, hq, accept, Receipt.read?_event_text hre, hlost]

/-- In a run from an empty ledger and empty caches, a response with status 201 that is sent back as
a request is answered as before, under a new event id, exactly if its metadata last. If no key of
the first request marks an embedded value, they do. -/
theorem replay_created_iff_lasts (ms : List Move) (p : Posting) (r : Receipt)
    (hr : (p, .ok r) ∈ (({} : Run).moves ms).replies) (hi : r.event.Integral)
    (hclock : Timestamp.Accepted p.moment.now) :
    (∀ t, Json.readTree? p.body = some t → t.Unmarked → r.event.Lasts) ∧
    ∀ q : Posting, q.body = octets r.tree.text → q.body.length ≤ bodyLimit → q.broken = none →
      (({} : Run).moves ms).fleet.store.available = true →
      let before := (({} : Run).moves ms).fleet
      let after := (before.post q).fleet
      (r.event.Lasts → ∃ eventId,
        (before.post q).value = .ok { r with eventId := eventId } ∧
        responseOf (before.post q).value = .ofJson 201 { r with eventId := eventId }.tree ∧
        (∀ x ∈ before.store.tables.issued, x.2 < eventId) ∧
        after.store.tables.rows = before.store.tables.rows) ∧
      (¬ r.event.Lasts → (before.post q).value = .error .malformed ∧
        statusOf (before.post q).value = 400 ∧ after = before) := by
  have hrun : (({} : Run).moves ms).Kept Tables.Sound := Run.kept ms
  have hanswered := hrun.answered p r hr
  obtain ⟨hash,hrec,hv,hvalid,hre⟩ := echo_of_answered hanswered hi hclock
  refine ⟨fun _ => lasts_of_answered hanswered,?_⟩
  intro q hq hlength hwhole hon before after
  have hreadBody : q.request.readBody = .ok (octets r.tree.text) :=
    (q.request.read_body_eq_ok_iff _).mpr ⟨hq,hlength,hwhole⟩
  constructor
  · intro hlasts
    have htext := Receipt.read?_event_text hre
    rw [r.event.reread_eq_some_iff.mpr hlasts] at htext
    have haccepted : q.request.accepted = .ok r.event :=
      (q.request.accepted_eq_ok_iff _).mpr ⟨_,hreadBody,htext,hvalid⟩
    obtain ⟨eventId,hval,hfresh,hrows⟩ := post_echo hrun.fleet hon hrec hv haccepted
    exact ⟨eventId,hval,congrArg responseOf hval,hfresh,hrows⟩
  · intro hlost
    have hnone := r.event.reread_eq_none (r.event.is_object_of_validate hvalid) hlost
    obtain ⟨hval,hafter⟩ := post_lost before hre hnone hreadBody
    exact ⟨hval,congrArg statusOf hval,hafter⟩

def counted : Posting where
  replica := 0
  body := countedBody
  moment := ⟨"2024-02-01T10:00:00Z", "01"⟩

def resent (r : Receipt) : Posting where
  replica := 1
  body := octets r.tree.text
  moment := ⟨"2024-02-01T10:00:01Z", "02"⟩

theorem read_body_resent (h : (resent r).body.length ≤ bodyLimit) :
    (resent r).request.readBody = .ok (octets r.tree.text) :=
  (Request.read_body_eq_ok_iff _ _).mpr ⟨rfl,h,rfl⟩

theorem replay_created_of_counted :
    let run := ({} : Run).moves [.post counted]
    ∃ r eventId, (counted, .ok r) ∈ run.replies ∧
      (run.fleet.post (resent r)).value = .ok { r with eventId := eventId } := by
  intro run
  have hfacts : run.replies.map (fun x => x.2.toOption.map fun r =>
      r.event.details.metadata.all (fun v =>
        v.integral && v.isObject && decide (v.Fits (Json.nestingLimit - 2))) &&
      decide ((resent r).body.length ≤ bodyLimit)) = [some true] := by decide +kernel
  obtain ⟨v,hrep⟩ : ∃ v, run.replies = [(counted, v)] := ⟨_,rfl⟩
  rw [hrep] at hfacts
  cases v with
  | error _ => exact nomatch hfacts
  | ok r =>
    have hall := Option.some.inj (List.cons.inj hfacts).1
    rw [Bool.and_eq_true, decide_eq_true_eq] at hall
    obtain ⟨hintegral,hlasts⟩ := ComplianceEvent.lasts_of_all hall.1
    have hr : (counted, .ok r) ∈ run.replies := by simp [hrep]
    have hclock : Timestamp.Accepted counted.moment.now := by decide +kernel
    have hreplay := (replay_created_iff_lasts [.post counted] counted r hr hintegral hclock).2
    obtain ⟨eventId,hval,_⟩ :=
      (hreplay (resent r) rfl hall.2 rfl (by decide +kernel)).1 hlasts
    exact ⟨r,eventId,hr,hval⟩

def marked : Posting where
  replica := 0
  body := octets markedText
  moment := ⟨"2024-02-01T10:00:00Z", "01"⟩

def yearless : Posting where
  replica := 0
  body := octets "[[\"c\"],null,[\"q\",\"n\",\"1\"]]"
  moment := ⟨"0000-02-01T10:00:00Z", "01"⟩

def markedReceipt : Receipt :=
  ⟨3, 1, none, 2, (markedEvent.completed marked.moment.now hashOfOne).withoutSpec⟩

theorem post_marked :
    let e := (({} : Run).moves []).fleet.post marked
    e.value = .ok markedReceipt ∧ e.fleet.store.available = true := by
  have haccepted : marked.request.accepted = .ok markedEvent :=
    (marked.request.accepted_eq_ok_iff _).mpr
      ⟨_,(marked.request.read_body_eq_ok_iff _).mpr ⟨rfl,by decide +kernel,rfl⟩,read?_marked_text,
        marked_event_validate⟩
  obtain ⟨hash,hv⟩ := markedEvent.valid_of_validate marked_event_validate
  have hhash : markedEvent.policy.identifyingHash.toOption = some (some hashOfOne) := by
    decide +kernel
  rw [hv.identifying] at hhash
  cases Option.some.inj (Option.some.inj hhash)
  have hids : (((record (markedEvent.completed marked.moment.now hashOfOne)).result .first
      ((({} : Run).moves []).fleet.site 0)).1.toOption.map fun r =>
        (r.eventId, r.clusterId, r.parentPolicyId, r.policyId)) = some (3, 1, none, 2) := by
    decide +kernel
  rw [← result_of_accepted .first _ haccepted hv] at hids
  rcases post_obtains (Run.kept []).fleet rfl haccepted hv with
    ⟨r,hval,⟨_,_,_,hgains,_,_⟩,hevent,_⟩ | ⟨_,_,hnone,_⟩
  · have hval' : (marked.plan.result .first ((({} : Run).moves []).fleet.site 0)).1 = .ok r := hval
    rw [hval'] at hids
    obtain ⟨eventId,clusterId,parentPolicyId,policyId,event⟩ := r
    simp only [Except.toOption, Option.map_some, Option.some.injEq, Prod.mk.injEq] at hids
    obtain ⟨rfl,rfl,rfl,rfl⟩ := hids
    cases hevent
    exact ⟨hval,hgains.available⟩
  · exact absurd hnone (by decide +kernel)

/-- The response is refused when it is sent back, although its metadata have integers alone. So is
one whose time of receipt is a date-time of the year zero. -/
theorem replay_refused_of_marked :
    let run := ({} : Run).moves [.post marked]
    let early := ({} : Run).moves [.post yearless]
    ((marked, .ok markedReceipt) ∈ run.replies ∧ markedReceipt.event.Integral ∧
      Timestamp.Accepted marked.moment.now ∧ run.fleet.store.available = true ∧
      (resent markedReceipt).body.length ≤ bodyLimit ∧
      statusOf (run.fleet.post (resent markedReceipt)).value = 400) ∧
    (Timestamp.read? yearless.moment.now).isSome ∧
    early.receipts.map (fun r => statusOf (early.fleet.post (resent r)).value) = [400] := by
  intro run early
  obtain ⟨hval,hon⟩ := post_marked
  have hreplies : run.replies = [(marked, .ok markedReceipt)] := by
    show [(marked, ((({} : Run).moves []).fleet.post marked).value)] = _
    rw [hval]
  have hlength : (resent markedReceipt).body.length ≤ bodyLimit := by decide +kernel
  have hre : markedReceipt.event.details.Rereadable := fun v hv =>
    ComplianceEvent.rereadable_of_of_tree? of_tree?_marked_tree marked_event_integral v hv
  have hlost : markedReceipt.event.reread = none := by decide
  have hrefused := (post_lost run.fleet hre hlost (read_body_resent hlength)).1
  refine ⟨⟨?_,marked_event_integral,by decide +kernel,hon,hlength,congrArg statusOf hrefused⟩,
    by decide +kernel,by decide +kernel⟩
  rw [hreplies]
  exact List.mem_singleton.mpr rfl

end ComplianceIntake.Intake
