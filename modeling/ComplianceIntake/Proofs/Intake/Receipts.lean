import ComplianceIntake.Proofs.Intake.Outcomes

/-!
# What a receipt says

A receipt echoes the event as it was sent, with the hash in the place of the
specification and with the time of receipt where no time was given. The last
row of the ledger is the row of the receipt, and the ids in it are those that
the ledger has for the keys of the event, whether they came from the ledger or
from a cache.
-/

set_option autoImplicit false

namespace ComplianceIntake.Event

open ComplianceIntake.Store
open ComplianceIntake.Text

def Policy.Identified (p : Policy) (hash : String) : Prop :=
  p.suppliedHash = some hash ∨
    p.suppliedHash = none ∧ ∃ spec, p.spec = some spec ∧ Spec.hash spec = .ok hash

theorem Policy.identified_of_identifying_hash {p : Policy} {hash : String}
    (h : p.identifyingHash = .ok (some hash)) : p.Identified hash := by
  unfold identifyingHash at h
  cases hs : p.suppliedHash with
  | some given =>
    simp only [hs, Except.ok.injEq] at h
    exact Or.inl (hs.trans h)
  | none =>
    cases ht : p.specText with
    | none => simp [hs, ht] at h
    | some spec =>
      cases hh : Spec.hash spec with
      | error malformed => simp [hs, ht, hh, Except.map] at h
      | ok computed =>
        simp only [hs, ht, hh, Except.map, Except.ok.injEq, Option.some.injEq] at h
        have hspec : p.spec = some spec := (Option.filter_eq_some_iff.mp ht).1
        exact Or.inr ⟨hs,spec,hspec,hh.trans (congrArg _ h)⟩

/-- What the receipt for an event that arrived at the time `now` says, between the tables that the
request found and those that it left. -/
structure Receipt.Echoes (r : Receipt) (e : ComplianceEvent) (now hash : String)
    (before after : Tables) : Prop where
  identified : e.policy.Identified hash
  shape : Spec.isHash hash = true
  event : r.event =
    { e with
      policy := { e.policy with spec := none, specHash := some hash }
      details := { e.details with timestamp := some (e.details.timestamp.getD now) } }
  parent : r.parentPolicyId.isSome = e.parentPolicy.isSome
  last : after.events = before.events ++
    [⟨r.eventId, ⟨r.clusterId, r.parentPolicyId, r.policyId, r.event.details⟩⟩]
  fresh : ∀ x ∈ before.issued, x.2 < r.eventId
  clusterId : after.id? (.cluster e.cluster.naturalKey) = some r.clusterId
  parentPolicyId : Option.Rel (fun p id => after.id? (.parentPolicy p.naturalKey) = some id)
    e.parentPolicy r.parentPolicyId
  policyId : after.id? (.policy ⟨trim e.policy.name, trim e.policy.space, hash⟩) = some r.policyId

end ComplianceIntake.Event

namespace ComplianceIntake.Intake

open ComplianceIntake.Event
open ComplianceIntake.Store

theorem ok_of_created {v : Verdict} (h : statusOf v = 201) : ∃ r, v = .ok r := by
  cases v with
  | ok r => exact ⟨r,rfl⟩
  | error refusal =>
    simp only [statusOf, Refusal.status] at h
    split at h <;> contradiction

theorem Records.fresh {f f' : Fleet Ledger} {p : Posting} {e : ComplianceEvent} {hash : String}
    {r : Receipt} (h : Records f f' p e hash r) (hf : f.store.tables.Sound) :
    ∀ x ∈ f.store.tables.issued, x.2 < r.eventId := by
  obtain ⟨spec,t,_,hgains,_,hid⟩ := h
  intro x hx
  have hle := (hgains.obtained.sound hf).issued_le x (hgains.obtained.grows.issued hf x hx)
  rw [hid]
  exact Int.lt_add_one_of_le hle

/-- A posting that comes out with a receipt held a valid event and found the ledger available. -/
theorem records_of_post {f : Fleet Ledger} {p : Posting} {r : Receipt} (hf : f.Kept Tables.Sound)
    (hr : (f.post p).value = .ok r) :
    ∃ e hash, p.request.accepted = .ok e ∧ e.Valid hash ∧
      Records f (f.post p).fleet p e hash r := by
  cases ha : p.request.accepted with
  | error refusal =>
    obtain ⟨hval,_⟩ := post_of_refused ha
    cases hr.symm.trans hval
  | ok e =>
    obtain ⟨hash,hv⟩ := p.request.valid_of_accepted e ha
    cases hon : f.store.available with
    | false =>
      obtain ⟨refusal,_,hval,_⟩ := post_of_unavailable ha hv hon
      cases hr.symm.trans hval
    | true =>
      rcases post_obtains hf hon ha hv with ⟨s,hval,hrecords,_⟩ | ⟨hval,_⟩
      · cases hr.symm.trans hval
        exact ⟨e,hash,rfl,hv,hrecords⟩
      · cases hr.symm.trans hval

theorem Request.read_body_eq_ok_iff (r : Request) (body : List UInt8) :
    r.readBody = .ok body ↔ r.body = body ∧ r.body.length ≤ bodyLimit ∧ r.broken = none := by
  unfold readBody
  split
  · simp; omega
  · cases r.broken with
    | none => simp; omega
    | some detail => simp

theorem Request.accepted_eq_ok_iff (r : Request) (e : ComplianceEvent) :
    r.accepted = .ok e ↔ ∃ body, r.readBody = .ok body ∧ ComplianceEvent.read? body = some e ∧
      e.validate = .ok () := by
  unfold accepted
  cases r.readBody with
  | error fault => simp
  | ok body => simp [accept_eq_ok_iff]

/-- Whatever the ledger and the caches hold, a request that is answered with status 201 is answered
with the receipt of its event, which is true of the ledger it leaves. -/
theorem created_echoes {f : Fleet Ledger} (hf : f.Reached) (p : Posting)
    (hstatus : statusOf (f.post p).value = 201) :
    ∃ body e hash r, p.request.readBody = .ok body ∧ ComplianceEvent.read? body = some e ∧
      (f.post p).value = .ok r ∧ responseOf (f.post p).value = .ofJson 201 r.tree ∧
      r.Echoes e p.moment.now hash f.store.tables (f.post p).fleet.store.tables := by
  obtain ⟨r,hr⟩ := ok_of_created hstatus
  obtain ⟨e,hash,ha,hv,hrecords⟩ := records_of_post hf.kept hr
  obtain ⟨body,hbody,hread,_⟩ := (p.request.accepted_eq_ok_iff e).mp ha
  obtain ⟨hrec,hlast⟩ := recorded_of_post hf.kept ha hv hr
  have hechoes : r.Echoes e p.moment.now hash f.store.tables (f.post p).fleet.store.tables :=
    { identified := Policy.identified_of_identifying_hash hv.identifying
      shape := hv.shape
      event := hrec.event
      parent := hrec.is_some_parent
      last := hlast
      fresh := hrecords.fresh hf.kept.tables
      clusterId := hrec.cluster
      parentPolicyId := hrec.parent
      policyId := hrec.policy }
  have hresponse : responseOf (f.post p).value = .ofJson 201 r.tree := by
    rw [hr]
    rfl
  exact ⟨body,e,hash,r,hbody,hread,hr,hresponse,hechoes⟩

/-- The cluster and the parent policy are there already, under another spelling. -/
theorem created_echoes_of_spelling :
    let f := (({} : Run).moves [.post otherSpelling]).fleet
    statusOf (f.post spelling).value = 201 ∧
    ∃ e r, ComplianceEvent.read? spelling.body = some e ∧ (f.post spelling).value = .ok r ∧
      r.event.cluster = e.cluster ∧ r.event.policy.spec = none := by
  intro f
  have hstatus : statusOf (f.post spelling).value = 201 := by decide +kernel
  obtain ⟨body,e,hash,r,hbody,hread,hr,_,hechoes⟩ :=
    created_echoes (.run [.post otherSpelling]) spelling hstatus
  have hbody' : spelling.request.readBody = .ok spelling.body := by rfl
  cases hbody'.symm.trans hbody
  refine ⟨hstatus,e,r,hread,hr,?_,?_⟩
  · rw [hechoes.event]
  · rw [hechoes.event]

end ComplianceIntake.Intake
