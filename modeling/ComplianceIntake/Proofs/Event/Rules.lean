import ComplianceIntake.Proofs.Event.DateTimes
import ComplianceIntake.Proofs.Event.Texts
import ComplianceIntake.Proofs.Spec.Tokens
import ComplianceIntake.Proofs.Text.Trimming

/-!
# The rules of validation

What an event has to satisfy, stated on its texts: required fields have more
than blanks in them, no text holds a NUL, a hash has the right shape and is that
of the specification, which is JSON, the time is a date-time and the metadata an
object. Validation accepts the events that satisfy all of this and no others.
Missing fields come before everything else and are reported together.
-/

set_option autoImplicit false

namespace ComplianceIntake.Event

open ComplianceIntake.Text

/-- A required field, by its path in the JSON form of the event, that has nothing but blanks. -/
inductive ComplianceEvent.Lacks (e : ComplianceEvent) : String → Prop
  | clusterIdentifier (h : Blank e.cluster.identifier) : e.Lacks "cluster.identifier"
  | parentName {p : ParentPolicy} (hp : e.parentPolicy = some p) (h : Blank p.name) :
      e.Lacks "parentPolicy.name"
  | parentSpace {p : ParentPolicy} (hp : e.parentPolicy = some p) (h : Blank p.space) :
      e.Lacks "parentPolicy.namespace"
  | policyName (h : Blank e.policy.name) : e.Lacks "policy.name"
  | policySpace (h : Blank e.policy.space) : e.Lacks "policy.namespace"
  | specOrHash (hs : ∀ spec ∈ e.policy.spec, Blank spec)
      (hh : ∀ hash ∈ e.policy.specHash, Blank hash) :
      e.Lacks "policy.spec or policy.specHash"

def requiredPaths : List String :=
  ["cluster.identifier", "parentPolicy.name", "parentPolicy.namespace", "policy.name",
    "policy.namespace", "policy.spec or policy.specHash"]

/-- The rules, each on its own. -/
structure ComplianceEvent.Admissible (e : ComplianceEvent) : Prop where
  provided : ∀ path, ¬ e.Lacks path
  nulFree : ∀ s ∈ e.texts, NulFree s
  hashShape : ∀ hash ∈ e.policy.specHash, ¬ Blank hash →
    (trim hash).toList.length = 40 ∧
      ∀ c ∈ (trim hash).toList, '0' ≤ c ∧ c ≤ '9' ∨ 'a' ≤ c ∧ c ≤ 'f'
  specJson : ∀ spec ∈ e.policy.spec, ¬ Blank spec → ∃ tokens, Spec.Tokens spec tokens
  hashOfSpec : ∀ hash ∈ e.policy.specHash, ¬ Blank hash → ∀ spec ∈ e.policy.spec, ¬ Blank spec →
    Spec.hash spec = .ok (trim hash)
  timestamp : ∀ text ∈ e.details.timestamp, ∃ t,
    Timestamp.IsDateTime ['-', Timestamp.minusSign] t (trim text).toList ∧ t.Exists ∧ 1 ≤ t.year
  metadata : ∀ v ∈ e.details.metadata, ∃ members, v = .object members

theorem Policy.mem_spec_text_iff (p : Policy) (spec : String) :
    spec ∈ p.specText ↔ spec ∈ p.spec ∧ ¬ Blank spec := by
  rw [specText, Option.mem_def, Option.filter_eq_some_iff, Option.isSome_iff_ne_none, ne_eq,
    supplied?_eq_none_iff]
  rfl

theorem Policy.mem_supplied_hash_iff (p : Policy) (given : String) :
    given ∈ p.suppliedHash ↔ ∃ hash ∈ p.specHash, ¬ Blank hash ∧ trim hash = given := by
  rw [suppliedHash, Option.mem_def, Option.bind_eq_some_iff]
  refine exists_congr fun hash => and_congr_right fun _ => ?_
  rw [supplied?_eq_some_iff]
  constructor
  · rintro ⟨hne,rfl⟩
    exact ⟨mt (trim_eq_empty_iff hash).mpr hne,rfl⟩
  · rintro ⟨hblank,rfl⟩
    exact ⟨mt (trim_eq_empty_iff hash).mp hblank,rfl⟩

theorem Policy.forall_supplied_hash_iff (p : Policy) (P : String → Prop) :
    (∀ given ∈ p.suppliedHash, P given) ↔ ∀ hash ∈ p.specHash, ¬ Blank hash → P (trim hash) := by
  simp only [mem_supplied_hash_iff]
  constructor
  · exact fun h hash hmem hblank => h _ ⟨hash,hmem,hblank,rfl⟩
  · rintro h given ⟨hash,hmem,hblank,rfl⟩
    exact h hash hmem hblank

theorem Policy.spec_text_eq_none_iff (p : Policy) :
    p.specText = none ↔ ∀ spec ∈ p.spec, Blank spec := by
  simp only [Option.eq_none_iff_forall_not_mem, mem_spec_text_iff, not_and, not_not]

theorem Policy.supplied_hash_eq_none_iff (p : Policy) :
    p.suppliedHash = none ↔ ∀ hash ∈ p.specHash, Blank hash := by
  rw [Option.eq_none_iff_forall_not_mem, p.forall_supplied_hash_iff fun _ => False]
  simp only [imp_false, not_not]

/-- A specification has a hash exactly when it has tokens. -/
theorem exists_hash_iff (spec : String) :
    (∃ hash, Spec.hash spec = .ok hash) ↔ ∃ tokens, Spec.Tokens spec tokens := by
  constructor
  · rintro ⟨hash,hok⟩
    obtain ⟨_,hcanonical,_⟩ := Spec.canonical_of_hash spec hash hok
    exact Spec.tokens_of_canonical hcanonical
  · rintro ⟨tokens,htokens⟩
    exact ⟨_,congrArg (Except.map _) (Spec.canonical_of_tokens htokens)⟩

theorem is_hash_iff (s : String) : Spec.isHash s = true ↔
    s.toList.length = 40 ∧ ∀ c ∈ s.toList, '0' ≤ c ∧ c ≤ '9' ∨ 'a' ≤ c ∧ c ≤ 'f' := by
  simp [Spec.isHash, Spec.isLowerHex]

namespace ComplianceEvent

variable (e : ComplianceEvent)

theorem mem_requirements_iff (path : String) :
    (∃ field, (field, true) ∈ e.requirements ∧ field.path = path) ↔ e.Lacks path := by
  have hgiven := e.policy.spec_text_eq_none_iff
  have hhash := e.policy.supplied_hash_eq_none_iff
  constructor
  · rintro ⟨field,hmem,rfl⟩
    simp only [requirements, List.mem_append] at hmem
    rcases hmem with (hcluster | hparent) | hpolicy
    · obtain ⟨rfl,hnone⟩ : field = .clusterIdentifier ∧ supplied? e.cluster.identifier = none := by
        simpa using hcluster
      exact .clusterIdentifier ((supplied?_eq_none_iff _).mp hnone)
    · cases hp : e.parentPolicy with
      | none => simp [hp] at hparent
      | some p =>
        simp only [hp, List.mem_cons, Prod.mk.injEq, List.not_mem_nil, or_false,
          Bool.true_eq, Option.isNone_iff_eq_none, supplied?_eq_none_iff] at hparent
        rcases hparent with ⟨rfl,h⟩ | ⟨rfl,h⟩
        · exact .parentName hp h
        · exact .parentSpace hp h
    · simp only [List.mem_cons, Prod.mk.injEq, List.not_mem_nil, or_false, Bool.true_eq,
        Bool.and_eq_true, Option.isNone_iff_eq_none, supplied?_eq_none_iff] at hpolicy
      rcases hpolicy with ⟨rfl,h⟩ | ⟨rfl,h⟩ | ⟨rfl,hs,hh⟩
      · exact .policyName h
      · exact .policySpace h
      · exact .specOrHash (hgiven.mp hs) (hhash.mp hh)
  · rintro (h | ⟨hp,h⟩ | ⟨hp,h⟩ | h | h | ⟨hs,hh⟩)
    · exact ⟨.clusterIdentifier,by simp [requirements, (supplied?_eq_none_iff _).mpr h],rfl⟩
    · exact ⟨.parentName,by simp [requirements, hp, (supplied?_eq_none_iff _).mpr h],rfl⟩
    · exact ⟨.parentSpace,by simp [requirements, hp, (supplied?_eq_none_iff _).mpr h],rfl⟩
    · exact ⟨.policyName,by simp [requirements, (supplied?_eq_none_iff _).mpr h],rfl⟩
    · exact ⟨.policySpace,by simp [requirements, (supplied?_eq_none_iff _).mpr h],rfl⟩
    · exact ⟨.policySpecOrHash,by simp [requirements, hgiven.mpr hs, hhash.mpr hh],rfl⟩

theorem mem_missing_fields_iff (path : String) :
    path ∈ e.missingFields.map Field.path ↔ e.Lacks path := by
  rw [← mem_requirements_iff]
  simp [missingFields]

theorem missing_fields_sublist : (e.missingFields.map Field.path).Sublist requiredPaths := by
  have hall : (e.requirements.map (·.1.path)).Sublist requiredPaths := by
    rw [requirements]
    cases e.parentPolicy with
    | none =>
      exact (List.sublist_append_right ["parentPolicy.name", "parentPolicy.namespace"] _).cons_cons
        "cluster.identifier"
    | some p => exact List.Sublist.refl _
  have hmissing := (List.filter_sublist (p := (·.2)) (l := e.requirements)).map (·.1.path)
  rw [missingFields, List.map_map]
  exact hmissing.trans hall

theorem check_missing_eq_ok_iff_provided : e.checkMissing = .ok () ↔ ∀ path, ¬ e.Lacks path := by
  simp only [← mem_missing_fields_iff, ← List.eq_nil_iff_forall_not_mem, List.map_eq_nil_iff]
  simp [checkMissing]

theorem check_hash_eq_ok_iff_shape : e.checkHash = .ok () ↔
    ∀ hash ∈ e.policy.specHash, ¬ Blank hash → (trim hash).toList.length = 40 ∧
      ∀ c ∈ (trim hash).toList, '0' ≤ c ∧ c ≤ '9' ∨ 'a' ≤ c ∧ c ≤ 'f' := by
  rw [check_hash_eq_ok_iff, Policy.forall_supplied_hash_iff]
  simp only [is_hash_iff]

theorem check_spec_eq_ok_iff_tokens : e.checkSpec = .ok () ↔
    (∀ spec ∈ e.policy.spec, ¬ Blank spec → ∃ tokens, Spec.Tokens spec tokens) ∧
    ∀ hash ∈ e.policy.specHash, ¬ Blank hash → ∀ spec ∈ e.policy.spec, ¬ Blank spec →
      Spec.hash spec = .ok (trim hash) := by
  have hgiven := e.policy.forall_supplied_hash_iff
  simp only [check_spec_eq_ok_iff, Policy.mem_spec_text_iff, ← exists_hash_iff, and_imp]
  constructor
  · intro h
    refine ⟨?_,fun hash hhash hblank spec hspec hsblank => ?_⟩
    · intro spec hspec hblank
      obtain ⟨hash,hok,_⟩ := h spec hspec hblank
      exact ⟨hash,hok⟩
    · obtain ⟨computed,hok,hsame⟩ := h spec hspec hsblank
      rw [hok, (hgiven (· = computed)).mp hsame hash hhash hblank]
  · rintro ⟨hjson,hsame⟩ spec hspec hblank
    obtain ⟨computed,hok⟩ := hjson spec hspec hblank
    refine ⟨computed,hok,(hgiven _).mpr fun hash hhash hhblank => ?_⟩
    exact Except.ok.inj ((hsame hash hhash hhblank spec hspec hblank).symm.trans hok)

theorem check_metadata_eq_ok_iff_object : e.checkMetadata = .ok () ↔
    ∀ v ∈ e.details.metadata, ∃ members, v = .object members := by
  have hobject : ∀ v : Json.Value, v.isObject = true ↔ ∃ members, v = .object members := by
    intro v
    cases v <;> simp [Json.Value.isObject]
  simp only [check_metadata_eq_ok_iff, hobject]

theorem validate_eq_ok_iff : e.validate = .ok () ↔ e.Admissible := by
  simp only [validate, bind_unit_eq_ok, check_missing_eq_ok_iff_provided,
    check_nul_eq_ok_iff_nul_free, check_hash_eq_ok_iff_shape, check_spec_eq_ok_iff_tokens,
    check_timestamp_eq_ok_iff, Timestamp.accepted_iff, check_metadata_eq_ok_iff_object]
  constructor
  · rintro ⟨hprovided,hnul,hshape,⟨hjson,hsame⟩,htime,hmetadata⟩
    exact ⟨hprovided,hnul,hshape,hjson,hsame,htime,hmetadata⟩
  · intro h
    exact ⟨h.provided,h.nulFree,h.hashShape,⟨h.specJson,h.hashOfSpec⟩,h.timestamp,h.metadata⟩

theorem validate_of_lacks {path : String} (h : e.Lacks path) :
    e.validate = .error (.missing e.missingFields) := by
  have hne : e.missingFields ≠ [] := by
    intro hnil
    have hmem := (e.mem_missing_fields_iff path).mpr h
    rw [hnil] at hmem
    exact List.not_mem_nil hmem
  have hcheck : e.checkMissing = .error (.missing e.missingFields) := by
    rw [checkMissing, if_neg (by simpa using hne)]
  rw [validate, hcheck]
  rfl

/-- Validation accepts exactly the events that satisfy all the rules. If a required field is
missing, then whatever else is wrong the message lists the missing ones, each once and in order. -/
theorem validate_decides_rules : (e.validate = .ok () ↔ e.Admissible) ∧
    ((∃ path, e.Lacks path) → ∃ reason paths, e.validate = .error reason ∧
      reason.message = "required fields not provided: " ++ ", ".intercalate paths ∧
      paths.Sublist requiredPaths ∧ paths.Nodup ∧ ∀ path, path ∈ paths ↔ e.Lacks path) := by
  refine ⟨e.validate_eq_ok_iff,?_⟩
  rintro ⟨path,hlacks⟩
  have horder := e.missing_fields_sublist
  have hnodup : requiredPaths.Nodup := by decide
  exact ⟨_,_,e.validate_of_lacks hlacks,rfl,horder,hnodup.sublist horder,e.mem_missing_fields_iff⟩

def unnamed : ComplianceEvent where
  cluster := { identifier := "east" }
  policy := { name := " ", specHash := some "\x00" }

theorem validate_unnamed : ∃ reason, unnamed.validate = .error reason ∧
    reason.message = "required fields not provided: policy.name, policy.namespace" := by
  have hname : unnamed.Lacks "policy.name" := .policyName (by decide)
  obtain ⟨reason,_,herror,_⟩ := unnamed.validate_decides_rules.2 ⟨_,hname⟩
  refine ⟨reason,herror,?_⟩
  obtain rfl : .missing [.policyName, .policySpace] = reason :=
    Except.error.inj ((unnamed.validate_of_lacks hname).symm.trans herror)
  rfl

end ComplianceEvent

end ComplianceIntake.Event
