import ComplianceIntake.Intake.Fleet
import ComplianceIntake.Proofs.Event.Validity
import ComplianceIntake.Proofs.Identity.Safety

/-!
# Recording an event

A request that holds a valid event resolves its records and inserts the event;
any other is refused before it touches anything. The plan of a request is safe
among others, and a receipt names the ids that the tables have for the keys of
the event, and the row of the event itself.
-/

set_option autoImplicit false

namespace ComplianceIntake.Event

open ComplianceIntake.Store

def Receipt.row (r : Receipt) : EventRow :=
  ⟨r.eventId, ⟨r.clusterId, r.parentPolicyId, r.policyId, r.event.details⟩⟩

namespace ComplianceEvent

/-- The tables hold what the receipt says about the event, which arrived at the time `now`. -/
structure Recorded (e : ComplianceEvent) (now hash : String) (t : Tables) (r : Receipt) : Prop where
  event : r.event = (e.completed now hash).withoutSpec
  cluster : t.id? (.cluster e.cluster.naturalKey) = some r.clusterId
  parent : Option.Rel (fun p id => t.id? (.parentPolicy p.naturalKey) = some id)
    e.parentPolicy r.parentPolicyId
  policy : t.id? (.policy (e.policy.keyWith hash)) = some r.policyId
  row : r.row ∈ t.events

theorem rel_mono {α β : Type} {R S : α → β → Prop} {x : Option α} {y : Option β}
    (h : Option.Rel R x y) (hRS : ∀ a b, R a b → S a b) : Option.Rel S x y := by
  cases h with
  | none => exact .none
  | some h => exact .some (hRS _ _ h)

theorem Recorded.mono {e : ComplianceEvent} {now hash : String} {t t' : Tables} {r : Receipt}
    (h : e.Recorded now hash t r) (hg : t.Grows t') : e.Recorded now hash t' r :=
  ⟨h.event,hg.ids _ _ h.cluster,rel_mono h.parent fun _ _ => hg.ids _ _,hg.ids _ _ h.policy,
    hg.events.subset h.row⟩

end ComplianceEvent

end ComplianceIntake.Event

namespace ComplianceIntake.Intake

open ComplianceIntake.Event
open ComplianceIntake.Store
open ComplianceIntake.Identity
open ComplianceIntake.Journal

/-- The event that a request holds, if its body can be read and passes every rule. -/
def Request.accepted (r : Request) : Except Refusal ComplianceEvent :=
  match r.readBody with
  | .error fault => .error (.unreadable fault)
  | .ok body => accept body

theorem accept_eq_ok_iff (body : List UInt8) (e : ComplianceEvent) :
    accept body = .ok e ↔ ComplianceEvent.read? body = some e ∧ e.validate = .ok () := by
  unfold accept
  split
  · next hr => simp [hr]
  · next d hr =>
    rw [hr, Option.some.injEq]
    split
    · next reason hv =>
      constructor
      · intro h
        contradiction
      · rintro ⟨rfl,h⟩
        cases hv.symm.trans h
    · next hv =>
      constructor
      · intro h
        cases h
        exact ⟨rfl,hv⟩
      · rintro ⟨rfl,_⟩
        rfl

theorem is_failure_of_accept (body : List UInt8) (refusal : Refusal)
    (h : accept body = .error refusal) : refusal.isFailure = false := by
  unfold accept at h
  split at h
  · cases h
    rfl
  · split at h
    · cases h
      rfl
    · contradiction

namespace Request

theorem valid_of_accepted (r : Request) (e : ComplianceEvent) (h : r.accepted = .ok e) :
    ∃ hash, e.Valid hash := by
  unfold accepted at h
  split at h
  · contradiction
  · next body _ => exact e.valid_of_validate ((accept_eq_ok_iff body e).mp h).2

theorem is_failure_of_accepted (r : Request) (refusal : Refusal) (h : r.accepted = .error refusal) :
    refusal.isFailure = false := by
  unfold accepted at h
  split at h
  · cases h
    rfl
  · next body _ => exact is_failure_of_accept body refusal h

end Request

theorem complete_of_valid {e : ComplianceEvent} {hash : String} (h : e.Valid hash) (now : String) :
    complete now e = .ok (e.completed now hash) := by
  simp [complete, h.fill_hash, ComplianceEvent.completed]

theorem ingest_of_accepted (m : Moment) (r : Request) (e : ComplianceEvent) (hash : String)
    (h : r.accepted = .ok e) (hv : e.Valid hash) :
    ingest m r = (record (e.completed m.now hash)).bind (conclude (r.id m.freshId) (some e)) := by
  rw [Request.accepted] at h
  rw [ingest]
  cases hb : r.readBody with
  | error fault => simp [hb] at h
  | ok body =>
    have haccept : accept body = .ok e := by simpa [hb] using h
    simp only [ingestBody, haccept, complete_of_valid hv]

theorem ingest_of_refusal (m : Moment) (r : Request) (refusal : Refusal)
    (h : r.accepted = .error refusal) :
    ∃ (entries : List Entry) (requestId : String) (event : Option ComplianceEvent),
      ingest m r = (Plan.noting (entries.map .log) (.done (.error refusal))).bind
        (conclude requestId event) := by
  rw [Request.accepted] at h
  rw [ingest]
  cases hb : r.readBody with
  | error fault =>
    have hfault : Refusal.unreadable fault = refusal := by simpa [hb] using h
    rw [← hfault]
    exact ⟨[_],_,_,rfl⟩
  | ok body =>
    have haccept : accept body = .error refusal := by simpa [hb] using h
    simp only [ingestBody, haccept]
    exact ⟨[],_,_,rfl⟩

theorem ingest_of_refused (m : Moment) (r : Request) (refusal : Refusal)
    (h : r.accepted = .error refusal) :
    ∃ notes, ingest m r = Plan.noting notes (.done (.error refusal)) := by
  obtain ⟨entries,requestId,event,heq⟩ := ingest_of_refusal m r refusal h
  rw [heq, Plan.bind_noting]
  exact ⟨entries.map .log ++ [_, _],(Plan.noting_append _ [_, _] _).symm⟩

section Safety

variable {valid : Tables → Prop} {may : Call → Prop}

theorem gives_resolve_for (x : Entity) (t : Tables) (ht : valid t)
    (hmay : ∀ u d, valid u → x.Drafts u d → may (.getOrCreate d))
    (hlook : ∀ hash, may (.specByHash hash)) : (resolveFor x).Gives valid may x.Identified t := by
  apply Plan.Safe.bind (gives_resolve x t hmay hlook) ht
  intro u r _ _ hid
  match r with
  | .ok id =>
    obtain ⟨key,hk,hi⟩ := hid id rfl
    exact Plan.gives_ok id u fun w _ hg => ⟨key,hk,hg.ids key id hi⟩
  | .error (.store error) => exact .note (Plan.gives_error _ u)
  | .error (.unusable fault) => exact Plan.gives_error _ u
  | .error (.unknownSpec hash) => exact Plan.gives_error _ u

theorem gives_insert_event (record : EventRecord) (t : Tables) (hmay : may (.insertEvent record)) :
    (insertEvent record).Gives valid may (fun u id => ⟨id, record⟩ ∈ u.events) t := by
  refine .act hmay ?_
  intro u answer _ _ ht
  cases answer with
  | ok id => exact .note (Plan.gives_ok id u fun w _ hg => hg.events.subset (ht id rfl))
  | error error => exact .note (Plan.gives_error _ u)

structure Entitled (valid : Tables → Prop) (may : Call → Prop) (e : ComplianceEvent) : Prop where
  cluster : ∀ t d, valid t → (Entity.cluster e.cluster).Drafts t d → may (.getOrCreate d)
  parent : ∀ t d p, valid t → e.parentPolicy = some p → (Entity.parentPolicy p).Drafts t d →
    may (.getOrCreate d)
  policy : ∀ t d, valid t → (Entity.policy e.policy).Drafts t d → may (.getOrCreate d)
  specByHash : ∀ hash, may (.specByHash hash)
  insertEvent : ∀ record, record.details = e.details → may (.insertEvent record)

theorem gives_resolve_parent {e : ComplianceEvent} {hash : String} (h : e.Valid hash)
    (he : Entitled valid may e) (t : Tables) (ht : valid t) :
    (resolveParent e.parentPolicy).Gives valid may
      (fun u id => Option.Rel (fun p id => u.id? (.parentPolicy p.naturalKey) = some id)
        e.parentPolicy id) t := by
  cases hp : e.parentPolicy with
  | none => exact Plan.gives_ok none t fun _ _ _ => .none
  | some p =>
    refine (gives_resolve_for (.parentPolicy p) t ht (fun u d hu hd => he.parent u d p hu hp hd)
      he.specByHash).and_then ht ?_
    intro u id _ _ hid
    obtain ⟨key,hk,hi⟩ := hid
    rw [Entity.key, h.parent p hp] at hk
    cases hk
    exact Plan.gives_ok (some id) u fun w _ hg => .some (hg.ids _ _ hi)

/-- Recording a valid event is safe, and its receipt is true of the tables. -/
theorem gives_record {e : ComplianceEvent} {now hash : String} (h : e.Valid hash)
    (he : Entitled valid may (e.completed now hash)) (t : Tables) (ht : valid t) :
    (record (e.completed now hash)).Gives valid may (e.Recorded now hash) t := by
  have hc := h.completed now
  apply (gives_resolve_for (.cluster e.cluster) t ht he.cluster he.specByHash).and_then ht
  intro u clusterId hu _ hcluster
  apply (gives_resolve_parent hc he u hu).and_then hu
  intro v parentId hv huv hparent
  refine (gives_resolve_for (.policy (e.completed now hash).policy) v hv he.policy
    he.specByHash).and_then hv ?_
  intro w policyId hw hvw hpolicy
  apply (gives_insert_event _ w (he.insertEvent _ rfl)).and_then hw
  intro x eventId hx hwx hrow
  obtain ⟨ckey,hck,hci⟩ := hcluster
  rw [Entity.key, h.cluster] at hck
  cases hck
  obtain ⟨pkey,hpk,hpi⟩ := hpolicy
  rw [Entity.key, hc.policy] at hpk
  cases hpk
  apply Plan.gives_ok
  intro y _ hxy
  have hvx := hvw.trans (hwx.trans hxy)
  have hux := huv.trans hvx
  exact ⟨rfl,hux.ids _ _ hci,ComplianceEvent.rel_mono hparent fun _ _ => hvx.ids _ _,
    (hwx.trans hxy).ids _ _ hpi,hxy.events.subset hrow⟩

theorem gives_conclude {good : Tables → Receipt → Prop} (requestId : String)
    (event : Option ComplianceEvent) (v : Verdict) (t : Tables)
    (h : ∀ u r, t.Grows u → v = .ok r → good u r) :
    (conclude requestId event v).Gives valid may good t :=
  .note (.note (.done fun u _ hg r hv => h u r hg hv))

end Safety

def Posting.Answered (p : Posting) (t : Tables) (r : Receipt) : Prop :=
  ∃ e hash, p.request.accepted = .ok e ∧ e.Valid hash ∧ e.Recorded p.moment.now hash t r

theorem Posting.Answered.mono {p : Posting} {t t' : Tables} {r : Receipt} (h : p.Answered t r)
    (hg : t.Grows t') : p.Answered t' r := by
  obtain ⟨e,hash,ha,hv,hr⟩ := h
  exact ⟨e,hash,ha,hv,hr.mono hg⟩

def Posting.Qualifies (valid : Tables → Prop) (may : Call → Prop) (p : Posting) : Prop :=
  ∀ e hash, p.request.accepted = .ok e → e.Valid hash →
    Entitled valid may (e.completed p.moment.now hash)

theorem gives_plan {valid : Tables → Prop} {may : Call → Prop} (p : Posting)
    (hq : p.Qualifies valid may) (t : Tables) (ht : valid t) :
    p.plan.Gives valid may p.Answered t := by
  cases ha : p.request.accepted with
  | error refusal =>
    obtain ⟨notes,hn⟩ := ingest_of_refused p.moment p.request refusal ha
    rw [Posting.plan, hn]
    exact Plan.Safe.noting notes (Plan.gives_error _ t)
  | ok e =>
    obtain ⟨hash,hv⟩ := p.request.valid_of_accepted e ha
    rw [Posting.plan, ingest_of_accepted _ _ e hash ha hv]
    have hrecord := gives_record hv (hq e hash ha hv) t ht
    apply Plan.Safe.bind hrecord ht
    intro u v _ _ hr
    apply gives_conclude
    exact fun w r hg hr' => ⟨e,hash,ha,hv,(hr r hr').mono hg⟩

end ComplianceIntake.Intake
