import ComplianceIntake.Proofs.Intake.KnownSpecs
import ComplianceIntake.Proofs.Intake.Reach

/-!
# Outcomes of a request

A request that was read comes to one of four outcomes, and its event, the
ledger's availability and the hashes that are known decide which. An event that
is no event or not valid, and an outage, leave everything as it was. An unknown
hash leaves at most the rows of the cluster and the parent policy behind. All
else is recorded, by exactly one row. Validation excludes every later refusal but
that of the unknown hash, and what a cache answers does not get a request past an
outage, since the event itself has to be inserted.
-/

set_option autoImplicit false

namespace ComplianceIntake.Intake

open ComplianceIntake.Event
open ComplianceIntake.Store
open ComplianceIntake.Identity
open ComplianceIntake.Journal

/-- The answer to all failures of the store. -/
def internalError : Response where
  status := 500
  contentType := some "application/json"
  content := .text "\x7b\"message\":\"Internal Error\"\x7d"

theorem of_message_internal_error : Response.ofMessage 500 "Internal Error" = internalError := by
  decide +kernel

theorem response_of_failure {r : Refusal} (h : r.isFailure = true) :
    responseOf (.error r) = internalError :=
  (response_of_is_failure h).trans of_message_internal_error

theorem status_of_accepted {r : Request} {refusal : Refusal} (h : r.accepted = .error refusal) :
    refusal.status = 400 := by
  simp [Refusal.status, r.is_failure_of_accepted refusal h]

/-- How a request that was read comes out, where other requests have led to this fleet. -/
theorem outcome_of_readable {f : Fleet Ledger} (hf : f.Reached) (p : Posting) (body : List UInt8)
    (hbody : p.request.readBody = .ok body) :
    let verdict := (f.post p).value
    let after := (f.post p).fleet
    ((∀ e, ComplianceEvent.read? body = some e → e.validate ≠ .ok ()) →
      statusOf verdict = 400 ∧ after = f) ∧
    (∀ error, responseOf (.error (.unresolved (.store error))) = internalError ∧
      responseOf (.error (.notRecorded error)) = internalError) ∧
    ∀ e, ComplianceEvent.read? body = some e → e.validate = .ok () →
      ∃ hash, e.policy.identifyingHash = .ok (some hash) ∧
        (f.store.available = false → responseOf verdict = internalError ∧ after = f) ∧
        (f.store.available = true → e.policy.specText = none → ¬ f.store.tables.Knows hash →
          statusOf verdict = 400 ∧
          f.Gains after p.replica e.ownerDrafts after.store.tables ∧
          (∀ i, Untouched (f.caches i) f.store.tables (after.caches i) after.store.tables) ∧
          ∀ i, let keys := e.ownerDrafts.map Draft.key
            (after.caches i).without keys = (f.caches i).without keys ∧
            after.store.tables.without keys = f.store.tables.without keys) ∧
        (f.store.available = true → (e.policy.specText = none → f.store.tables.Knows hash) →
          ∃ r, verdict = .ok r ∧ statusOf verdict = 201 ∧
            Records f after p e hash r ∧
            after.store.tables.events = f.store.tables.events ++ [r.row] ∧
            e.Recorded p.moment.now hash after.store.tables r) := by
  intro verdict after
  have hkept := hf.kept
  have haccept : p.request.accepted = accept body := by rw [Request.accepted, hbody]
  refine ⟨?_,fun error => ⟨response_of_failure rfl,response_of_failure rfl⟩,?_⟩
  · intro hbad
    cases ha : accept body with
    | error refusal =>
      obtain ⟨hval,hafter⟩ := post_of_refused (haccept.trans ha)
      have hstatus : statusOf verdict = refusal.status := congrArg statusOf hval
      exact ⟨hstatus.trans (status_of_accepted (haccept.trans ha)),hafter⟩
    | ok e =>
      obtain ⟨hread,hvalid⟩ := (accept_eq_ok_iff body e).mp ha
      exact absurd hvalid (hbad e hread)
  · intro e hread hvalid
    have ha := haccept.trans ((accept_eq_ok_iff body e).mpr ⟨hread,hvalid⟩)
    obtain ⟨hash,hv⟩ := e.valid_of_validate hvalid
    refine ⟨hash,hv.identifying,?_,?_,?_⟩
    · intro hoff
      obtain ⟨refusal,hfailure,hval,hafter⟩ := post_of_unavailable ha hv hoff
      have hresponse : responseOf verdict = responseOf (.error refusal) := congrArg responseOf hval
      exact ⟨hresponse.trans (response_of_failure hfailure),hafter⟩
    · intro hon hnone hunknown
      rcases post_obtains hkept hon ha hv with ⟨_,_,_,_,hknown⟩ | ⟨hval,hgains,_,_⟩
      · exact absurd (hknown hnone) hunknown
      · have hstatus : statusOf verdict = 400 := congrArg statusOf hval
        exact ⟨hstatus,hgains,hgains.untouched e.kind_owner_drafts,hgains.without⟩
    · intro hon hknown
      rcases post_obtains hkept hon ha hv with ⟨r,hval,hrecords,_,_⟩ | ⟨_,_,hnone,hunknown⟩
      · obtain ⟨hrec,hevents⟩ := recorded_of_post hkept ha hv hval
        exact ⟨r,hval,congrArg statusOf hval,hrecords,hevents,hrec⟩
      · exact absurd (hknown hnone) hunknown

theorem outcomes_of_hash_alone :
    let known := (({} : Run).moves [.post spelling]).fleet
    let outage := (({} : Run).moves [.post spelling, .setAvailable false]).fleet
    let unknown := (({} : Run).moves []).fleet
    statusOf (known.post hashAlone).value = 201 ∧
    responseOf (outage.post hashAlone).value = internalError ∧
    statusOf (unknown.post hashAlone).value = 400 ∧
    (unknown.post hashAlone).fleet.store.tables.policies = [] := by
  intro known outage unknown
  have hbody : hashAlone.request.readBody = .ok hashAlone.body := by rfl
  have hshape : (ComplianceEvent.read? hashAlone.body).map
      (fun e => (e.policy.specText, e.policy.suppliedHash, e.validate.toOption)) =
      some (none, some hashOfOne, some ()) := by decide +kernel
  have hpolicies : known.store.tables.policies.map (·.key.specHash) = [hashOfOne] := by
    decide +kernel
  obtain ⟨e,hread,hfields⟩ := Option.map_eq_some_iff.mp hshape
  simp only [Prod.mk.injEq] at hfields
  obtain ⟨hspec,hhash,hvalid⟩ := hfields
  have hok : e.validate = .ok () := by
    cases hv : e.validate with
    | error reason =>
      rw [hv] at hvalid
      contradiction
    | ok _ => rfl
  have hid : e.policy.identifyingHash = .ok (some hashOfOne) := by
    rw [Policy.identifyingHash, hhash]
  have hknows : known.store.tables.Knows hashOfOne :=
    List.mem_map.mp (hpolicies ▸ List.mem_singleton_self hashOfOne)
  obtain ⟨h,hh,_,_,hd⟩ :=
    (outcome_of_readable (.run [.post spelling]) hashAlone _ hbody).2.2 e hread hok
  obtain ⟨h',hh',hb,_,_⟩ :=
    (outcome_of_readable (.run [.post spelling, .setAvailable false]) hashAlone _ hbody).2.2
      e hread hok
  obtain ⟨h'',hh'',_,hc,_⟩ := (outcome_of_readable (.run []) hashAlone _ hbody).2.2 e hread hok
  cases hid.symm.trans hh
  cases hid.symm.trans hh''
  have hunknown : ¬ unknown.store.tables.Knows hashOfOne := by
    rintro ⟨row,hrow,_⟩
    exact absurd hrow List.not_mem_nil
  obtain ⟨_,_,hcreated,_⟩ := hd (by decide +kernel) fun _ => hknows
  obtain ⟨hrefused,_,huntouched,_⟩ := hc rfl hspec hunknown
  exact ⟨hcreated,(hb (by decide +kernel)).1,hrefused,(huntouched 0).policies⟩

end ComplianceIntake.Intake
