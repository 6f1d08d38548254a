import ComplianceIntake.Proofs.Event.Validity

/-!
# Events that are sent back

The event of a receipt has the hash of its specification alone, and a time. It
is valid if the event that was sent is and the time of receipt is a date-time
that validation accepts: the hash has the right shape, nothing else was changed,
and neither a hash nor a date-time holds a NUL.
-/

set_option autoImplicit false

namespace ComplianceIntake.Event

open ComplianceIntake.Text
open ComplianceIntake.Number

theorem holds_nul_eq_false_iff (s : String) :
    holdsNul s = false ↔ ∀ c ∈ s.toList, isNul c = false := by
  simp [holdsNul]

theorem holds_nul_of_trim {s : String} (h : holdsNul (trim s) = false) : holdsNul s = false := by
  rw [holds_nul_eq_false_iff] at *
  intro c hc
  by_cases hblank : isBlank c = true
  · by_contra hnul
    have hc0 : c = '\x00' := by simpa [isNul] using hnul
    rw [hc0] at hblank
    exact absurd hblank (by decide)
  · exact h c (mem_trim_of_not_blank (by simpa using hblank) hc)

namespace Timestamp

def Clean (cs : List Char) : Prop := ∀ c ∈ cs, isNul c = false

instance (cs : List Char) : Decidable (Clean cs) :=
  decidable_of_iff (cs.all (!isNul ·) = true) (by simp [Clean])

variable {cs rest : List Char}

theorem is_nul_of_is_digit {c : Char} (h : isDigit c = true) : isNul c = false := by
  by_contra hnul
  have hc : c = '\x00' := by simpa [isNul] using hnul
  rw [hc] at h
  contradiction

theorem clean_of_take_number {width n : Nat} (h : takeNumber width cs = some (n, rest))
    (hrest : Clean rest) : Clean cs := by
  simp only [takeNumber, Option.ite_none_right_eq_some, Option.some.injEq, Prod.mk.injEq] at h
  obtain ⟨⟨_,hdigits⟩,_,rfl⟩ := h
  intro c hc
  rw [← List.take_append_drop width cs, List.mem_append] at hc
  rcases hc with hc | hc
  · exact is_nul_of_is_digit (List.all_eq_true.mp hdigits c hc)
  · exact hrest c hc

theorem clean_of_take_one_of {allowed : List Char} {c : Char} (hallowed : Clean allowed)
    (h : takeOneOf allowed cs = some (c, rest)) (hrest : Clean rest) : Clean cs := by
  cases cs with
  | nil => contradiction
  | cons d ds =>
    simp only [takeOneOf, Option.ite_none_right_eq_some, Option.some.injEq, Prod.mk.injEq] at h
    obtain ⟨hmem,rfl,rfl⟩ := h
    exact List.forall_mem_cons.mpr ⟨hallowed d (by simpa using hmem),hrest⟩

theorem clean_of_take_fraction {digits : List Char} (h : takeFraction cs = some (digits, rest))
    (hrest : Clean rest) : Clean cs := by
  unfold takeFraction at h
  split at h
  · next ds =>
    simp only [Option.ite_none_left_eq_some, Option.some.injEq, Prod.mk.injEq] at h
    obtain ⟨_,_,rfl⟩ := h
    refine List.forall_mem_cons.mpr ⟨by decide,?_⟩
    intro c hc
    rw [← List.takeWhile_append_dropWhile (p := isDigit) (l := ds), List.mem_append] at hc
    rcases hc with hc | hc
    · exact is_nul_of_is_digit (List.mem_takeWhile_imp hc)
    · exact hrest c hc
  · cases h
    exact hrest

theorem clean_of_bind {α β : Type} {x : Option (α × List Char)} {f : α × List Char → Option β}
    {b : β} (hx : ∀ {a rest}, x = some (a, rest) → Clean rest → Clean cs) (h : x.bind f = some b)
    (hf : ∀ a rest, f (a, rest) = some b → Clean rest) : Clean cs := by
  obtain ⟨⟨a,rest⟩,ha,hb⟩ := Option.bind_eq_some_iff.mp h
  exact hx ha (hf a rest hb)

theorem clean_of_is_empty (h : cs.isEmpty = true) : Clean cs := by
  rw [List.isEmpty_iff.mp h]
  exact List.forall_mem_nil _

theorem clean_of_read_offset {offset : Int} (h : readOffset cs = some offset) : Clean cs := by
  refine clean_of_bind (clean_of_take_one_of (by decide)) h fun _ _ h => ?_
  dsimp only at h
  split at h
  · exact clean_of_is_empty (Option.ite_none_right_eq_some.mp h).1
  · refine clean_of_bind clean_of_take_number h fun _ _ h => ?_
    refine clean_of_bind (clean_of_take_one_of (by decide)) h fun _ _ h => ?_
    refine clean_of_bind clean_of_take_number h fun _ _ h => ?_
    exact clean_of_is_empty (Option.ite_none_right_eq_some.mp h).1.1

theorem clean_of_read? {text : String} {t : Timestamp} (h : read? text = some t) :
    Clean text.toList := by
  refine clean_of_bind clean_of_take_number h fun _ _ h => ?_
  refine clean_of_bind (clean_of_take_one_of (by decide)) h fun _ _ h => ?_
  refine clean_of_bind clean_of_take_number h fun _ _ h => ?_
  refine clean_of_bind (clean_of_take_one_of (by decide)) h fun _ _ h => ?_
  refine clean_of_bind clean_of_take_number h fun _ _ h => ?_
  refine clean_of_bind (clean_of_take_one_of (by decide)) h fun _ _ h => ?_
  refine clean_of_bind clean_of_take_number h fun _ _ h => ?_
  refine clean_of_bind (clean_of_take_one_of (by decide)) h fun _ _ h => ?_
  refine clean_of_bind clean_of_take_number h fun _ _ h => ?_
  refine clean_of_bind (clean_of_take_one_of (by decide)) h fun _ _ h => ?_
  refine clean_of_bind clean_of_take_number h fun _ _ h => ?_
  refine clean_of_bind clean_of_take_fraction h fun _ _ h => ?_
  obtain ⟨_,hoffset,_⟩ := Option.bind_eq_some_iff.mp h
  exact clean_of_read_offset hoffset

/-- The text is a date-time that validation accepts. -/
def Accepted (text : String) : Prop := ∃ t, read? (trim text) = some t ∧ 1 ≤ t.year

instance (text : String) : Decidable (Accepted text) :=
  decidable_of_iff ((read? (trim text)).any (1 ≤ ·.year) = true) <| by
    cases h : read? (trim text) <;> simp [Accepted, h]

theorem Accepted.holds_nul {text : String} (h : Accepted text) : holdsNul text = false := by
  obtain ⟨t,ht,_⟩ := h
  exact holds_nul_of_trim ((holds_nul_eq_false_iff _).mpr (clean_of_read? ht))

end Timestamp

namespace ComplianceEvent

variable (e : ComplianceEvent)

theorem check_missing_eq_ok_iff :
    e.checkMissing = .ok () ↔ ∀ x ∈ e.requirements, x.2 = false := by
  constructor
  · exact fun h x hx => e.supplied_of_check_missing h x.1 x.2 hx
  · intro h
    have hempty : e.missingFields = [] := by
      rw [missingFields, List.map_eq_nil_iff, List.filter_eq_nil_iff]
      intro x hx
      simp [h x hx]
    rw [checkMissing, hempty]
    rfl

theorem check_nul_eq_ok_iff : e.checkNul = .ok () ↔ ∀ x ∈ e.nulFields, x.2 = false := by
  unfold checkNul
  split
  · next field hfound =>
    constructor
    · exact fun h => nomatch h
    · intro h
      have hnul := List.find?_some hfound
      rw [h _ (List.mem_of_find?_eq_some hfound)] at hnul
      contradiction
  · next hnone =>
    simpa using hnone

theorem check_timestamp_eq_ok_iff :
    e.checkTimestamp = .ok () ↔ ∀ text ∈ e.details.timestamp, Timestamp.Accepted text := by
  unfold checkTimestamp
  cases e.details.timestamp with
  | none => simp
  | some text =>
    simp only [Option.mem_def, Option.some.injEq, forall_eq', Timestamp.Accepted]
    cases Timestamp.read? (trim text) with
    | none => simp
    | some t => simp [Nat.one_le_iff_ne_zero]

theorem check_metadata_eq_ok_iff :
    e.checkMetadata = .ok () ↔ ∀ v ∈ e.details.metadata, v.isObject = true := by
  unfold checkMetadata
  cases e.details.metadata <;> simp

theorem is_object_of_validate (h : e.validate = .ok ()) :
    ∀ v ∈ e.details.metadata, v.isObject = true := by
  simp only [validate, bind_unit_eq_ok] at h
  obtain ⟨_,_,_,_,_,hmetadata⟩ := h
  exact e.check_metadata_eq_ok_iff.mp hmetadata

theorem accepted_of_validate (h : e.validate = .ok ()) :
    ∀ text ∈ e.details.timestamp, Timestamp.Accepted text := by
  simp only [validate, bind_unit_eq_ok] at h
  obtain ⟨_,_,_,_,htime,_⟩ := h
  exact e.check_timestamp_eq_ok_iff.mp htime

variable {e : ComplianceEvent} {now hash : String}

theorem holds_nul_of_is_hash (h : Spec.isHash hash = true) : holdsNul hash = false := by
  rw [holds_nul_eq_false_iff]
  intro c hc
  simp only [Spec.isHash, Bool.and_eq_true, List.all_eq_true] at h
  by_contra hnul
  have hc0 : c = '\x00' := by simpa [isNul] using hnul
  have hhex := h.2 c hc
  rw [hc0] at hhex
  contradiction

theorem Valid.echo (h : e.Valid hash) (now : String) :
    (e.completed now hash).withoutSpec.Valid hash :=
  h.restated none _ nofun

/-- A valid event stays valid when its hash is put in, with its specification or without it, and
with a time that is a date-time. -/
theorem validate_restated (h : e.validate = .ok ()) (hv : e.Valid hash)
    (spec time : Option String) (hspec : ∀ s ∈ spec, e.policy.spec = some s)
    (htime : ∀ text ∈ time, Timestamp.Accepted text) :
    (e.restated hash spec time).validate = .ok () := by
  have hsupplied : supplied? hash = some hash := Spec.supplied?_of_is_hash hash hv.shape
  have hrestated := hv.restated spec time hspec
  simp only [validate, bind_unit_eq_ok] at h ⊢
  obtain ⟨hmissing,hclean,_,_,_,hmetadata⟩ := h
  rw [check_missing_eq_ok_iff, requirements] at hmissing
  rw [check_nul_eq_ok_iff, nulFields] at hclean
  have hgiven : (e.restated hash spec time).policy.suppliedHash = some hash := hsupplied
  refine ⟨?_,?_,?_,?_,?_,hmetadata⟩
  · rw [check_missing_eq_ok_iff, requirements]
    simp only [List.forall_mem_append, List.forall_mem_cons] at hmissing ⊢
    obtain ⟨⟨hcluster,hparent⟩,hname,hspace,_⟩ := hmissing
    refine ⟨⟨hcluster,hparent⟩,hname,hspace,?_,List.forall_mem_nil _⟩
    rw [hgiven, Option.isNone_some, Bool.and_false]
  · rw [check_nul_eq_ok_iff, nulFields]
    simp only [List.forall_mem_append, List.forall_mem_cons] at hclean ⊢
    obtain ⟨⟨hid,hcname,hname,hspace,htext,_,hmessage,_,hby,hmeta,_⟩,hparent⟩ := hclean
    refine ⟨⟨hid,hcname,hname,hspace,?_,holds_nul_of_is_hash hv.shape,hmessage,?_,hby,hmeta,
      List.forall_mem_nil _⟩,hparent⟩
    · cases spec with
      | none => rfl
      | some text => rwa [hspec text rfl] at htext
    · cases time with
      | none => rfl
      | some text => exact (htime text rfl).holds_nul
  · rw [check_hash_eq_ok_iff, hgiven]
    rintro _ ⟨⟩
    exact hv.shape
  · rw [check_spec_eq_ok_iff, hgiven]
    intro text htext
    refine ⟨hash,hrestated.spec text htext,?_⟩
    rintro _ ⟨⟩
    rfl
  · rw [check_timestamp_eq_ok_iff]
    exact htime

theorem validate_echo (h : e.validate = .ok ()) (hv : e.Valid hash)
    (hnow : Timestamp.Accepted now) : (e.completed now hash).withoutSpec.validate = .ok () := by
  refine validate_restated h hv none (some (e.details.timestamp.getD now)) nofun ?_
  rintro _ ⟨⟩
  cases ht : e.details.timestamp with
  | none => exact hnow
  | some text => exact e.accepted_of_validate h text ht

end ComplianceEvent

end ComplianceIntake.Event
