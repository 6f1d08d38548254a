import ComplianceIntake.Proofs.Intake.Postings
import ComplianceIntake.Proofs.Intake.SurrogateIds

/-!
# Hashes that stand for specifications

A policy may come with the hash of its specification alone. The service knows a
hash when a policy has it, and it comes to know one only together with the
receipt of an event: every policy row of an uninterrupted run belongs to an
event that was recorded. A hash alone is therefore accepted exactly when an
earlier receipt of the run names it, whatever that receipt was for.
-/

set_option autoImplicit false

namespace ComplianceIntake.Store

open ComplianceIntake.Event

namespace Tables

/-- Getting or creating a policy makes its hash known, and no other. -/
theorem knows_get_or_create_policy (t : Tables) (key : PolicyKey) (spec hash : String) :
    (t.getOrCreate (.policy key spec)).2.Knows hash ↔ t.Knows hash ∨ hash = key.specHash := by
  unfold getOrCreate
  split
  · next id hid =>
    constructor
    · exact Or.inl
    · rintro (hk | rfl)
      · exact hk
      · exact knows_of_row hid
  · constructor
    · rintro ⟨row,hrow,rfl⟩
      rcases List.mem_append.mp hrow with hrow | hrow
      · exact Or.inl ⟨row,hrow,rfl⟩
      · rw [List.mem_singleton.mp hrow]
        exact Or.inr rfl
    · rintro (⟨row,hrow,rfl⟩ | rfl)
      · exact ⟨row,List.mem_append_left _ hrow,rfl⟩
      · exact ⟨_,List.mem_append_right _ (List.mem_singleton.mpr rfl),rfl⟩

end Tables

end ComplianceIntake.Store

namespace ComplianceIntake.Identity

open ComplianceIntake.Event
open ComplianceIntake.Store
open ComplianceIntake.Journal

theorem Obtained.knows_iff {key : PolicyKey} {spec : String} {c c' : Cache} {t t' : Tables}
    {id : Int} (h : Obtained (.policy key spec) c t id c' t') (hc : c.Agrees t) (hash : String) :
    t'.Knows hash ↔ t.Knows hash ∨ hash = key.specHash := by
  cases h with
  | hit h =>
    have hknown : t.Knows key.specHash :=
      Tables.knows_of_row (hc _ _ (c.mem_entries_of_lookup _ _ h))
    constructor
    · exact Or.inl
    · rintro (hk | rfl)
      · exact hk
      · exact hknown
  | miss h => exact t.knows_get_or_create_policy key spec hash

theorem ObtainedAll.knows_iff {ds : List Draft} {key : PolicyKey} {spec : String} {c c' : Cache}
    {t t' : Tables} (h : ObtainedAll (ds ++ [.policy key spec]) c t c' t') (hc : c.Agrees t)
    (hk : ∀ d ∈ ds, d.key.kind ≠ .policy) (hash : String) :
    t'.Knows hash ↔ t.Knows hash ∨ hash = key.specHash := by
  obtain ⟨c₁,t₁,howners,hpolicy⟩ := h.of_append
  rw [← (howners.untouched hk).knows_iff hash]
  cases hpolicy with
  | cons hgot hrest =>
    cases hrest with
    | nil c t => exact hgot.knows_iff (howners.agrees hc) hash

end ComplianceIntake.Identity

namespace ComplianceIntake.Intake

open ComplianceIntake.Event
open ComplianceIntake.Store
open ComplianceIntake.Identity
open ComplianceIntake.Journal
open ComplianceIntake.Text

theorem post_of_available {f : Fleet Ledger} {p : Posting} {e : ComplianceEvent} {hash : String}
    (hf : f.Kept Tables.Sound) (hon : f.store.available = true) (ha : p.request.accepted = .ok e)
    (hv : e.Valid hash) :
    (∃ r, (f.post p).value = .ok r ∧ r.event.policy.specHash = some hash ∧
      (∀ other, (f.post p).fleet.store.tables.Knows other ↔
        f.store.tables.Knows other ∨ other = hash) ∧
      (e.policy.specText = none → f.store.tables.Knows hash)) ∨
    (f.post p).value = .error (.unresolved (.unknownSpec hash)) ∧
      (∀ i, Untouched (f.caches i) f.store.tables ((f.post p).fleet.caches i)
        (f.post p).fleet.store.tables) ∧
      e.policy.specText = none ∧ ¬ f.store.tables.Knows hash := by
  rcases post_obtains hf hon ha hv with
    ⟨r,hval,⟨spec,t,_,hgains,htables,_⟩,hevent,hknown⟩ | ⟨hval,hgains,hnone,hunknown⟩
  · have hhash : r.event.policy.specHash = some hash := by
      rw [hevent]
      rfl
    have hknows := hgains.obtained.knows_iff (hf.caches p.replica) e.kind_owner_drafts
    rw [htables]
    exact Or.inl ⟨r,hval,hhash,hknows,hknown⟩
  · exact Or.inr ⟨hval,hgains.untouched e.kind_owner_drafts,hnone,hunknown⟩

namespace Run

/-- A receipt of the run names the hash. -/
def Taught (r : Run) (hash : String) : Prop :=
  ∃ p receipt, (p, .ok receipt) ∈ r.replies ∧ receipt.event.policy.specHash = some hash

theorem taught_move_post (r : Run) (p : Posting) (hash : String) :
    (r.move (.post p)).Taught hash ↔ r.Taught hash ∨
      ∃ receipt, (r.fleet.post p).value = .ok receipt ∧
        receipt.event.policy.specHash = some hash := by
  constructor
  · rintro ⟨q,receipt,hmem,hhash⟩
    rcases List.mem_append.mp hmem with hmem | hmem
    · exact Or.inl ⟨q,receipt,hmem,hhash⟩
    · obtain ⟨_,hv⟩ := Prod.mk.inj (List.mem_singleton.mp hmem)
      exact Or.inr ⟨receipt,hv.symm,hhash⟩
  · rintro (⟨q,receipt,hmem,hhash⟩ | ⟨receipt,hv,hhash⟩)
    · exact ⟨q,receipt,List.mem_append_left _ hmem,hhash⟩
    · have hlast : (p, .ok receipt) ∈ [(p, (r.fleet.post p).value)] := by
        rw [hv]
        exact List.mem_singleton.mpr rfl
      exact ⟨p,receipt,List.mem_append_right _ hlast,hhash⟩

def Informed (r : Run) : Prop := ∀ hash, r.tables.Knows hash ↔ r.Taught hash

theorem informed_empty : Informed {} := by
  intro hash
  constructor
  · rintro ⟨row,hrow,_⟩
    exact absurd hrow List.not_mem_nil
  · rintro ⟨p,receipt,hmem,_⟩
    exact absurd hmem List.not_mem_nil

variable {r : Run}

/-- A posting that is refused and changes no policy teaches nothing. -/
theorem Informed.post_of_error (h : r.Informed) {p : Posting} {refusal : Refusal}
    (hval : (r.fleet.post p).value = .error refusal)
    (hpol : (r.fleet.post p).fleet.store.tables.policies = r.tables.policies) :
    (r.move (.post p)).Informed := by
  intro hash
  rw [taught_move_post, hval, ← h hash]
  show (r.fleet.post p).fleet.store.tables.Knows hash ↔ _
  rw [Tables.Knows, Tables.Knows, hpol]
  simp

theorem Informed.post (hr : r.Kept Tables.Sound) (h : r.Informed) (p : Posting) :
    (r.move (.post p)).Informed := by
  have hsame {refusal : Refusal} (hval : (r.fleet.post p).value = .error refusal)
      (hfleet : (r.fleet.post p).fleet = r.fleet) : (r.move (.post p)).Informed :=
    h.post_of_error hval (congrArg (fun f => f.store.tables.policies) hfleet)
  cases ha : p.request.accepted with
  | error refusal =>
    obtain ⟨hval,hfleet⟩ := post_of_refused ha
    exact hsame hval hfleet
  | ok e =>
    obtain ⟨hash,hv⟩ := p.request.valid_of_accepted e ha
    cases hon : r.fleet.store.available with
    | false =>
      obtain ⟨_,_,hval,hfleet⟩ := post_of_unavailable ha hv hon
      exact hsame hval hfleet
    | true =>
      rcases post_of_available hr.fleet hon ha hv with
        ⟨receipt,hval,hhash,hknows,_⟩ | ⟨hval,hu,_,_⟩
      · intro other
        rw [taught_move_post, hval, ← h other]
        have hnamed : other = hash ↔ ∃ s, Except.ok receipt = (.ok s : Verdict) ∧
            s.event.policy.specHash = some other := by
          constructor
          · rintro rfl
            exact ⟨receipt,rfl,hhash⟩
          · rintro ⟨s,hs,hother⟩
            cases hs
            exact Option.some.inj (hother.symm.trans hhash)
        exact (hknows other).trans (or_congr Iff.rfl hnamed)
      · exact h.post_of_error hval (hu p.replica).policies

theorem Informed.moves (hr : r.Kept Tables.Sound) (h : r.Informed) (ms : List Move) :
    (r.moves ms).Informed := by
  induction ms generalizing r with
  | nil => exact h
  | cons m ms ih =>
    apply ih (hr.move preserved_sound (entitles_all _) m)
    cases m with
    | post p => exact h.post hr p
    | setAvailable on => exact h

end Run

/-- In a run from an empty ledger and empty caches, a valid event that comes with the hash of its
specification alone is answered that it is recorded exactly when an earlier receipt of the run
names this hash. Otherwise the answer asks for the specification, and no policy and no event is
added to the ledger, and no policy to a cache. -/
theorem hash_alone_accepted_iff_taught (ms : List Move) (p : Posting) (e : ComplianceEvent)
    (hash : String) (ha : p.request.accepted = .ok e) (hspec : e.policy.specText = none)
    (hhash : e.policy.suppliedHash = some hash)
    (hon : (({} : Run).moves ms).fleet.store.available = true) :
    let run := ({} : Run).moves ms
    let verdict := (run.fleet.post p).value
    let after := run.move (.post p)
    (statusOf verdict = 201 ↔ run.Taught hash) ∧
    (¬ run.Taught hash →
      responseOf verdict = .ofMessage 400 (ResolveError.unknownSpec hash).message ∧
      ∀ i, Untouched (run.fleet.caches i) run.tables (after.fleet.caches i) after.tables) := by
  intro run verdict after
  have hrun : run.Kept Tables.Sound := Run.kept ms
  have hinformed : run.Informed := Run.informed_empty.moves (Run.kept_empty Tables.sound_empty) ms
  obtain ⟨h,hv⟩ := p.request.valid_of_accepted e ha
  have hidentifying := hv.identifying
  rw [Policy.identifyingHash, hhash] at hidentifying
  cases hidentifying
  rcases post_of_available hrun.fleet hon ha hv with
    ⟨receipt,hval,_,_,hnone⟩ | ⟨hval,hu,_,hunknown⟩
  · have htaught : run.Taught hash := (hinformed hash).mp (hnone hspec)
    have hstatus : statusOf verdict = 201 := by
      show statusOf (run.fleet.post p).value = 201
      rw [hval]
      rfl
    exact ⟨⟨fun _ => htaught,fun _ => hstatus⟩,fun hn => absurd htaught hn⟩
  · have huntaught : ¬ run.Taught hash := fun ht => hunknown ((hinformed hash).mpr ht)
    have hstatus : statusOf verdict ≠ 201 := by
      show statusOf (run.fleet.post p).value ≠ 201
      rw [hval]
      exact (by decide : (400 : Nat) ≠ 201)
    have hresponse : responseOf verdict =
        .ofMessage 400 (ResolveError.unknownSpec hash).message := by
      show responseOf (run.fleet.post p).value = _
      rw [hval]
      rfl
    exact ⟨⟨fun hs => absurd hs hstatus,fun ht => absurd ht huntaught⟩,fun _ => ⟨hresponse,hu⟩⟩

def hashOfOne : String := "356a192b7913b04c54574d18c28d46e6395428ab"

def hashAlone : Posting where
  replica := 1
  body := octets ("[[\"d\"],null,[\"r\",\"m\",null,\"" ++ hashOfOne ++ "\"]]")
  moment := ⟨"2024-02-01T10:00:02Z", "03"⟩

theorem hash_alone_accepted_after_spelling :
    statusOf ((({} : Run).moves [.post spelling]).fleet.post hashAlone).value = 201 ∧
    responseOf ((({} : Run).moves []).fleet.post hashAlone).value =
      .ofMessage 400 (ResolveError.unknownSpec hashOfOne).message := by
  have hshape : hashAlone.request.accepted.toOption.map
      (fun e => (e.policy.specText, e.policy.suppliedHash)) =
      some (none, some hashOfOne) := by decide +kernel
  have hhashes : (({} : Run).moves [.post spelling]).replies.map
      (fun x => x.2.toOption.bind fun r => r.event.policy.specHash) =
      [some hashOfOne] := by decide +kernel
  have htaught : (({} : Run).moves [.post spelling]).Taught hashOfOne := by
    obtain ⟨v,hv⟩ : ∃ v, (({} : Run).moves [.post spelling]).replies = [(spelling, v)] := ⟨_,rfl⟩
    rw [hv] at hhashes
    cases v with
    | error refusal => exact nomatch hhashes
    | ok r =>
      have hmem : (spelling, .ok r) ∈ (({} : Run).moves [.post spelling]).replies := by
        rw [hv]
        exact List.mem_singleton.mpr rfl
      exact ⟨spelling,r,hmem,(List.cons.inj hhashes).1⟩
  have huntaught : ¬ (({} : Run).moves []).Taught hashOfOne := by
    rintro ⟨q,r,hmem,_⟩
    exact absurd hmem List.not_mem_nil
  cases ha : hashAlone.request.accepted with
  | error refusal =>
    rw [ha] at hshape
    exact nomatch hshape
  | ok e =>
    rw [ha] at hshape
    obtain ⟨hspec,hhash⟩ := Prod.mk.inj (Option.some.inj hshape)
    have hfirst := hash_alone_accepted_iff_taught [.post spelling] hashAlone e _ ha hspec hhash
      (by decide +kernel)
    have hempty := hash_alone_accepted_iff_taught [] hashAlone e _ ha hspec hhash rfl
    exact ⟨hfirst.1.mpr htaught,(hempty.2 huntaught).1⟩

end ComplianceIntake.Intake
