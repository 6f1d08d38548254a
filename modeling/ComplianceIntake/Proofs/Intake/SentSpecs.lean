import ComplianceIntake.Proofs.Intake.Reach

/-!
# Stored specifications were sent

A policy is stored with a specification that came with an event, to the letter:
with its own event, or, where that brought a hash alone, with that of an earlier
one. What is true of the specifications that are sent in a run is therefore true
of all that its ledger holds.
-/

set_option autoImplicit false

namespace ComplianceIntake.Store

open ComplianceIntake.Identity

def Tables.SpecsAmong (specs : String → Prop) (t : Tables) : Prop :=
  ∀ row ∈ t.policies, specs row.spec

def Call.SpecAmong (specs : String → Prop) : Call → Prop
  | .getOrCreate (.policy _ spec) => specs spec
  | _ => True

variable {specs : String → Prop} {t : Tables}

theorem Tables.SpecsAmong.create (h : t.SpecsAmong specs) {draft : Draft}
    (hd : (Call.getOrCreate draft).SpecAmong specs) : (t.create draft).SpecsAmong specs := by
  cases draft with
  | cluster key name => exact h
  | parentPolicy key => exact h
  | policy key spec => exact List.forall_mem_append.mpr ⟨h,List.forall_mem_singleton.mpr hd⟩

theorem Tables.SpecsAmong.get_or_create (h : t.SpecsAmong specs) {draft : Draft}
    (hd : (Call.getOrCreate draft).SpecAmong specs) :
    (t.getOrCreate draft).2.SpecsAmong specs := by
  unfold Tables.getOrCreate
  split
  · cases draft <;> exact h
  · exact h.create hd

theorem preserved_specs_among (specs : String → Prop) :
    Preserved (Tables.SpecsAmong specs) (Call.SpecAmong specs) := by
  intro choice c l hc h
  cases c with
  | getOrCreate draft => exact h.get_or_create hc
  | specByHash hash => exact h
  | insertEvent record => exact h
  | ping => exact h

end ComplianceIntake.Store

namespace ComplianceIntake.Intake

open ComplianceIntake.Event
open ComplianceIntake.Store
open ComplianceIntake.Identity
open ComplianceIntake.Text

/-- The specification that the posting comes with, if it holds a valid event. -/
def Posting.spec? (p : Posting) : Option String :=
  p.request.accepted.toOption.bind fun e => e.policy.specText

/-- The specifications that come with the valid events among these moves. -/
def Sent (ms : List Move) (spec : String) : Prop := ∃ p, .post p ∈ ms ∧ p.spec? = some spec

theorem sent_posts_iff (ps : List Posting) (spec : String) :
    Sent (ps.map .post) spec ↔ some spec ∈ ps.map Posting.spec? := by
  simp [Sent]

/-- For given postings it can be evaluated that SHA-1 has no collision among what is sent. -/
theorem collision_free_of_posts {ps : List Posting} {sent : List (Option String)}
    (hsent : ps.map Posting.spec? = sent) (h : ∀ x ∈ sent, ∀ y ∈ sent,
      x.map Spec.hash = y.map Spec.hash → x.map Spec.canonical = y.map Spec.canonical) :
    Spec.CollisionFree (Sent (ps.map .post)) := by
  intro spec spec' text text' hspec hspec' htext htext' hsha
  rw [sent_posts_iff, hsent] at hspec hspec'
  have hhash : (some spec).map Spec.hash = (some spec').map Spec.hash := by
    simp [Spec.hash, htext, htext', Except.map, hsha]
  have hcanonical := h _ hspec _ hspec' hhash
  rw [Option.map_some, Option.map_some, htext, htext'] at hcanonical
  exact Except.ok.inj (Option.some.inj hcanonical)

/-- An event about the policy `q` in this space, with this specification. -/
def specified (space spec : String) : Posting where
  replica := 1
  body := octets ("[[\"c\"],null,[\"q\",\"" ++ space ++ "\",\"" ++ spec ++ "\"]]")
  moment := ⟨"2024-02-01T10:00:01Z", "02"⟩

theorem qualifies_specs_among {specs : String → Prop} {p : Posting}
    (h : ∀ spec, p.spec? = some spec → specs spec) :
    p.Qualifies (Tables.SpecsAmong specs) (Call.SpecAmong specs) := by
  intro e hash ha _
  constructor
  · rintro t d _ ⟨key,_,rfl⟩
    trivial
  · rintro t d q _ _ ⟨key,_,rfl⟩
    trivial
  · rintro t d ht ⟨key,spec,_,rfl,hown | ⟨_,hrow⟩⟩
    · apply h spec
      rw [Posting.spec?, ha]
      exact hown
    · obtain ⟨row,hmem,_,rfl⟩ := (t.mem_specs_of_iff _ _).mp hrow
      exact ht row hmem
  · exact fun _ => trivial
  · exact fun _ _ => trivial

theorem qualifies_sent (ms : List Move) : ∀ p, .post p ∈ ms →
    p.Qualifies (Tables.SpecsAmong (Sent ms)) (Call.SpecAmong (Sent ms)) :=
  fun p hp => qualifies_specs_among fun _ hs => ⟨p,hp,hs⟩

theorem kept_specs_among_empty (specs : String → Prop) :
    ({} : Run).fleet.Kept (Tables.SpecsAmong specs) :=
  .new (List.forall_mem_nil _)

/-- Every specification in the ledger after a run came with an event of the run. -/
theorem specs_sent (ms : List Move) : (({} : Run).moves ms).tables.SpecsAmong (Sent ms) :=
  ((kept_specs_among_empty _).moves (preserved_specs_among _) (qualifies_sent ms)).tables

end ComplianceIntake.Intake
