import ComplianceIntake.Proofs.Event.DateTimes
import ComplianceIntake.Proofs.Intake.Reach
import ComplianceIntake.Proofs.Intake.Receipts

/-!
# Stored times

Every event is stored with a time, which its receipt echoes. The trimmed text
of the time is one that validation accepts, but it is the text as it was sent
that is stored. So the stored text is a date-time of the standard where there
was nothing to trim and the offset has no minus sign proper, and nowhere else.
-/

set_option autoImplicit false

namespace ComplianceIntake.Event

open ComplianceIntake.Text
open ComplianceIntake.Event.Timestamp

def Details.Timed (d : Details) : Prop := ∃ text, d.timestamp = some text ∧ Accepted text

/-- What is true of the text of a time: trimmed it is an existing date-time with an admissible
sign, and as it stands it is one of the standard where nothing keeps it from that. -/
structure TimeText (text : String) : Prop where
  trimmed : ∃ t, IsDateTime ['-', minusSign] t (trim text).toList ∧ t.Exists ∧ 1 ≤ t.year
  standard : IsRfc3339 text ↔ trim text = text ∧ minusSign ∉ text.toList

theorem Details.Timed.text {d : Details} (h : d.Timed) :
    ∃ text, d.timestamp = some text ∧ TimeText text := by
  obtain ⟨text,htext,haccepted⟩ := h
  exact ⟨text,htext,(accepted_iff text).mp haccepted,is_rfc3339_iff_of_accepted haccepted⟩

theorem ComplianceEvent.timed_completed {e : ComplianceEvent} {now : String}
    (h : e.validate = .ok ()) (hnow : Accepted now) (hash : String) :
    (e.completed now hash).details.Timed := by
  refine ⟨_,rfl,?_⟩
  cases ht : e.details.timestamp with
  | none => exact hnow
  | some text => exact e.accepted_of_validate h text ht

end ComplianceIntake.Event

namespace ComplianceIntake.Store

open ComplianceIntake.Event
open ComplianceIntake.Identity

def Tables.Timed (t : Tables) : Prop := ∀ row ∈ t.events, row.record.details.Timed

def Call.Timed : Call → Prop
  | .insertEvent record => record.details.Timed
  | _ => True

theorem preserved_timed : Preserved Tables.Timed Call.Timed := by
  intro choice c l hc h
  cases c with
  | getOrCreate draft =>
    show Tables.Timed (l.tables.getOrCreate draft).2
    rwa [Tables.Timed, Tables.events_get_or_create]
  | specByHash hash => exact h
  | insertEvent record => exact List.forall_mem_append.mpr ⟨h,List.forall_mem_singleton.mpr hc⟩
  | ping => exact h

end ComplianceIntake.Store

namespace ComplianceIntake.Intake

open ComplianceIntake.Event
open ComplianceIntake.Event.Timestamp
open ComplianceIntake.Store
open ComplianceIntake.Identity
open ComplianceIntake.Text

theorem qualifies_timed {p : Posting} (hnow : Accepted p.moment.now) :
    p.Qualifies Tables.Timed Call.Timed := by
  intro e hash ha _
  obtain ⟨_,_,_,hvalid⟩ := (p.request.accepted_eq_ok_iff e).mp ha
  refine ⟨fun _ _ _ _ => trivial,fun _ _ _ _ _ _ => trivial,fun _ _ _ _ => trivial,
    fun _ => trivial,?_⟩
  intro record hrecord
  rw [Call.Timed, hrecord]
  exact ComplianceEvent.timed_completed hvalid hnow hash

/-- Wherever postings lead, every stored event has a time, and the receipt of a posting echoes the
time in its row. The text of the time is a date-time of the standard if and only if there is nothing
to trim and no minus sign proper in it. -/
theorem stored_times {f : Fleet Ledger} (hf : f.ReachedBy fun p => IsRfc3339 p.moment.now) :
    (∀ row ∈ f.store.tables.events,
      ∃ text, row.record.details.timestamp = some text ∧ TimeText text) ∧
    ∀ p r, IsRfc3339 p.moment.now → (f.post p).value = .ok r →
      r.row ∈ (f.post p).fleet.store.tables.events ∧
      ∃ text, r.event.details.timestamp = some text ∧ TimeText text := by
  have hq : ∀ p : Posting, IsRfc3339 p.moment.now → p.Qualifies Tables.Timed Call.Timed :=
    fun p hnow => qualifies_timed hnow.accepted
  have hkept : f.Kept Tables.Timed := hf.kept preserved_timed (List.forall_mem_nil _) hq
  constructor
  · exact fun row hrow => (hkept.tables row hrow).text
  · intro p r hnow hr
    obtain ⟨hkept',_,hanswered⟩ := Run.kept_post preserved_timed (hq p hnow) hkept
    obtain ⟨_,_,_,_,hrecorded⟩ := hanswered r hr
    exact ⟨hrecorded.row,(hkept'.tables r.row hrecorded.row).text⟩

def padded : Posting where
  replica := 0
  body := octets "[[\"c\"],null,[\"q\",\"n\",\"1\"],[null,null,\" 2024-02-01T10:00:00Z \"]]"
  moment := ⟨"2024-02-01T10:00:00Z", "01"⟩

theorem is_rfc3339_moment : IsRfc3339 "2024-02-01T10:00:00Z" :=
  (is_rfc3339_iff_of_accepted (by decide)).mpr ⟨by decide,by decide⟩

theorem stored_times_of_padded :
    let f := (({} : Run).moves [.post spelling]).fleet
    ∃ r, (f.post padded).value = .ok r ∧ r.row ∈ (f.post padded).fleet.store.tables.events ∧
      ∃ text, r.event.details.timestamp = some text ∧ TimeText text := by
  intro f
  have hreached : f.ReachedBy fun p => IsRfc3339 p.moment.now := by
    apply Fleet.ReachedBy.run
    intro p hp
    cases List.mem_singleton.mp hp
    exact is_rfc3339_moment
  have hstatus : statusOf (f.post padded).value = 201 := by decide +kernel
  obtain ⟨r,hr⟩ := ok_of_created hstatus
  exact ⟨r,hr,(stored_times hreached).2 padded r is_rfc3339_moment hr⟩

/-- The blanks are stored and echoed, and with them the text is no date-time of the standard. -/
theorem padded_time_stored :
    let run := ({} : Run).moves [.post padded]
    IsRfc3339 padded.moment.now ∧ run.replies.map (fun x => statusOf x.2) = [201] ∧
      ∃ text, ¬ IsRfc3339 text ∧
        run.tables.events.map (·.record.details.timestamp) = [some text] ∧
        run.receipts.map (·.event.details.timestamp) = [some text] := by
  have hpadded : ¬ IsRfc3339 " 2024-02-01T10:00:00Z " := by
    rw [is_rfc3339_iff_of_accepted (by decide)]
    decide
  exact ⟨is_rfc3339_moment,by decide +kernel,_,hpadded,by decide +kernel,by decide +kernel⟩

end ComplianceIntake.Intake
