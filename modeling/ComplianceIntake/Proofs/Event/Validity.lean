import ComplianceIntake.Event.Validation
import ComplianceIntake.Proofs.Spec.Hash
import ComplianceIntake.Proofs.Text.Ascending

/-!
# What validation establishes

A valid event has a natural key for each of its records, and one hash that
identifies its specification: a hash that is supplied has the right shape and
is that of the specification, where the event has both. Putting the hash and a
time into the event changes none of this.
-/

set_option autoImplicit false

namespace ComplianceIntake.Event

open ComplianceIntake.Text

def Policy.keyWith (p : Policy) (hash : String) : PolicyKey := ⟨trim p.name, trim p.space, hash⟩

/-- An event whose records all have their keys, with the hash of its specification. -/
structure ComplianceEvent.Valid (e : ComplianceEvent) (hash : String) : Prop where
  cluster : e.cluster.key = .ok e.cluster.naturalKey
  parent : ∀ p, e.parentPolicy = some p → p.key = .ok p.naturalKey
  policy : e.policy.key = .ok (e.policy.keyWith hash)
  identifying : e.policy.identifyingHash = .ok (some hash)
  shape : Spec.isHash hash = true
  spec : ∀ spec, e.policy.specText = some spec → Spec.hash spec = .ok hash

theorem bind_eq_ok_iff {ε α β : Type} (x : Except ε α) (f : α → Except ε β) (b : β) :
    x >>= f = .ok b ↔ ∃ a, x = .ok a ∧ f a = .ok b := by
  cases x <;> simp [bind, Except.bind]

theorem bind_eq_error_iff {ε α β : Type} (x : Except ε α) (f : α → Except ε β) (error : ε) :
    x >>= f = .error error ↔ x = .error error ∨ ∃ a, x = .ok a ∧ f a = .error error := by
  cases x <;> simp [bind, Except.bind]

theorem bind_unit_eq_ok {ε : Type} (x y : Except ε Unit) :
    (x >>= fun _ => y) = .ok () ↔ x = .ok () ∧ y = .ok () := by
  rw [bind_eq_ok_iff]
  constructor
  · rintro ⟨_,h⟩
    exact h
  · exact fun h => ⟨(),h⟩

theorem require_of_supplied (field : Field) (s : String) (h : (supplied? s).isNone = false) :
    require field s = .ok (trim s) := by
  unfold require
  cases hs : supplied? s with
  | none => simp [hs] at h
  | some t => rw [(supplied?_eq_some hs).1]

namespace ComplianceEvent

theorem supplied_of_check_missing (e : ComplianceEvent) (h : e.checkMissing = .ok ())
    (field : Field) (missing : Bool) (hr : (field, missing) ∈ e.requirements) :
    missing = false := by
  have hempty : e.missingFields = [] := by
    unfold checkMissing at h
    split at h
    · simpa using (by assumption : e.missingFields.isEmpty = true)
    · contradiction
  cases missing with
  | false => rfl
  | true =>
    have hm : field ∈ e.missingFields :=
      List.mem_map.mpr ⟨_,List.mem_filter.mpr ⟨hr,rfl⟩,rfl⟩
    rw [hempty] at hm
    contradiction

theorem check_hash_eq_ok_iff (e : ComplianceEvent) :
    e.checkHash = .ok () ↔ ∀ hash ∈ e.policy.suppliedHash, Spec.isHash hash = true := by
  unfold checkHash
  cases e.policy.suppliedHash with
  | none => simp
  | some hash => cases h : Spec.isHash hash <;> simp [h]

theorem check_spec_eq_ok_iff (e : ComplianceEvent) :
    e.checkSpec = .ok () ↔ ∀ spec ∈ e.policy.specText, ∃ hash, Spec.hash spec = .ok hash ∧
      ∀ given ∈ e.policy.suppliedHash, given = hash := by
  unfold checkSpec
  cases e.policy.specText with
  | none => simp
  | some spec =>
    cases h : Spec.hash spec with
    | error m => simp [h]
    | ok hash => cases e.policy.suppliedHash <;> simp [h, eq_comm]

/-- The one hash that identifies the specification of a policy that passes the checks. -/
theorem identifying_hash_of_checks (e : ComplianceEvent)
    (hr : (e.policy.specText.isNone && e.policy.suppliedHash.isNone) = false)
    (hh : e.checkHash = .ok ()) (hs : e.checkSpec = .ok ()) :
    ∃ hash, e.policy.identifyingHash = .ok (some hash) ∧ Spec.isHash hash = true ∧
      ∀ spec, e.policy.specText = some spec → Spec.hash spec = .ok hash := by
  unfold Policy.identifyingHash
  cases hg : e.policy.suppliedHash with
  | some given =>
    have htext : ∀ spec, e.policy.specText = some spec → Spec.hash spec = .ok given := by
      intro spec hspec
      obtain ⟨hash,hok,heq⟩ := e.check_spec_eq_ok_iff.mp hs spec hspec
      rw [hok, heq given hg]
    exact ⟨given,rfl,e.check_hash_eq_ok_iff.mp hh given hg,htext⟩
  | none =>
    cases hspec : e.policy.specText with
    | none => simp [hg, hspec] at hr
    | some spec =>
      obtain ⟨hash,hok,-⟩ := e.check_spec_eq_ok_iff.mp hs spec hspec
      have hshape : Spec.isHash hash = true := Spec.is_hash_of_hash spec hash hok
      have htext : ∀ other, some spec = some other → Spec.hash other = .ok hash := by
        intro other ho
        cases ho
        exact hok
      exact ⟨hash,by simp [hok, Except.map],hshape,htext⟩

end ComplianceEvent

theorem Policy.key_of_identifying_hash (p : Policy) (hash : String)
    (hh : p.identifyingHash = .ok (some hash)) (hn : (supplied? p.name).isNone = false)
    (hs : (supplied? p.space).isNone = false) : p.key = .ok (p.keyWith hash) := by
  simp [Policy.key, hh, require_of_supplied _ _ hn, require_of_supplied _ _ hs, bind, Except.bind,
    pure, Except.pure, Policy.keyWith]

theorem ComplianceEvent.valid_of_validate (e : ComplianceEvent) (h : e.validate = .ok ()) :
    ∃ hash, e.Valid hash := by
  simp only [ComplianceEvent.validate, bind_unit_eq_ok] at h
  obtain ⟨hmissing,_,hhash,hspec,_,_⟩ := h
  have hreq := e.supplied_of_check_missing hmissing
  have hidentifier : (supplied? e.cluster.identifier).isNone = false :=
    hreq .clusterIdentifier _ (by simp [requirements])
  have hname : (supplied? e.policy.name).isNone = false :=
    hreq .policyName _ (by simp [requirements])
  have hspace : (supplied? e.policy.space).isNone = false :=
    hreq .policySpace _ (by simp [requirements])
  have hgiven : (e.policy.specText.isNone && e.policy.suppliedHash.isNone) = false :=
    hreq .policySpecOrHash _ (by simp [requirements])
  obtain ⟨hash,hid,hshape,htext⟩ := e.identifying_hash_of_checks hgiven hhash hspec
  have hcluster : e.cluster.key = .ok e.cluster.naturalKey := by
    simp [Cluster.key, require_of_supplied _ _ hidentifier, bind, Except.bind, pure, Except.pure]
  have hparent : ∀ p, e.parentPolicy = some p → p.key = .ok p.naturalKey := by
    intro p hp
    have hpname : (supplied? p.name).isNone = false :=
      hreq .parentName _ (by simp [requirements, hp])
    have hpspace : (supplied? p.space).isNone = false :=
      hreq .parentSpace _ (by simp [requirements, hp])
    simp [ParentPolicy.key, require_of_supplied _ _ hpname, require_of_supplied _ _ hpspace, bind,
      Except.bind, pure, Except.pure]
  have hpolicy := e.policy.key_of_identifying_hash hash hid hname hspace
  exact ⟨hash,hcluster,hparent,hpolicy,hid,hshape,htext⟩

namespace ComplianceEvent

def restated (e : ComplianceEvent) (hash : String) (spec time : Option String) : ComplianceEvent :=
  { e with
    policy := { e.policy with spec := spec, specHash := some hash }
    details := { e.details with timestamp := time } }

/-- The event as it is recorded: with its hash in place, and with a time. -/
def completed (e : ComplianceEvent) (now hash : String) : ComplianceEvent :=
  { e with
    policy := { e.policy with specHash := some hash }
    details := { e.details with timestamp := some (e.details.timestamp.getD now) } }

theorem Valid.fill_hash {e : ComplianceEvent} {hash : String} (h : e.Valid hash) :
    e.policy.fillHash = .ok { e.policy with specHash := some hash } := by
  simp [Policy.fillHash, h.identifying, Except.map]

theorem Valid.restated {e : ComplianceEvent} {hash : String} (h : e.Valid hash)
    (spec time : Option String) (hspec : ∀ s ∈ spec, e.policy.spec = some s) :
    (e.restated hash spec time).Valid hash := by
  have hsupplied : supplied? hash = some hash := Spec.supplied?_of_is_hash hash h.shape
  have hid : (e.restated hash spec time).policy.identifyingHash = .ok (some hash) := by
    simp [ComplianceEvent.restated, Policy.identifyingHash, Policy.suppliedHash, hsupplied]
  have htext : ∀ text, (e.restated hash spec time).policy.specText = some text →
      Spec.hash text = .ok hash := by
    intro text ht
    obtain ⟨hmem,hblank⟩ := Option.filter_eq_some_iff.mp ht
    exact h.spec text (Option.filter_eq_some_iff.mpr ⟨hspec text hmem,hblank⟩)
  have hkey := h.policy
  refine ⟨h.cluster,h.parent,?_,hid,h.shape,htext⟩
  simp only [Policy.key, h.identifying] at hkey
  simp only [Policy.key, hid]
  exact hkey

theorem Valid.completed {e : ComplianceEvent} {hash : String} (h : e.Valid hash) (now : String) :
    (e.completed now hash).Valid hash :=
  h.restated e.policy.spec _ fun _ hs => hs

end ComplianceEvent

end ComplianceIntake.Event
