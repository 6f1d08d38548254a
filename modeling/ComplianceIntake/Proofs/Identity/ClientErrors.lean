import ComplianceIntake.Proofs.Event.Echoes
import ComplianceIntake.Proofs.Identity.Traces

/-!
# The one error of the client that validation leaves open

Presence, blanks, trimming and the hash of a specification are looked at by the
validation of an event, when its hash is filled in, when a natural key is
derived and when a specification is fetched. All of them agree on an event that
is valid, so nothing that follows can find fault with it but for the one thing
that only the store can tell: whether a hash that comes alone is known.
-/

set_option autoImplicit false

namespace ComplianceIntake.Event

open ComplianceIntake.Identity

namespace ComplianceEvent

def entities (e : ComplianceEvent) : List Entity :=
  .cluster e.cluster :: e.parentPolicy.toList.map .parentPolicy ++ [.policy e.policy]

def filled (e : ComplianceEvent) (hash : String) : ComplianceEvent :=
  { e with policy := { e.policy with specHash := some hash } }

end ComplianceEvent

end ComplianceIntake.Event

namespace ComplianceIntake.Identity

open ComplianceIntake.Event
open ComplianceIntake.Store
open ComplianceIntake.Journal

/-- Whatever the cache and the store answer, the resolution of the record may end with this error,
which the client has to mend. -/
def Entity.MayReject (x : Entity) (error : ResolveError) : Prop :=
  x.resolve.MayGive (.error error) ∧ error.isClientError = true

section Parts

variable {error : ResolveError}

theorem may_give_ask_store (call : Call) (r : Except ResolveError call.Answer) :
    (askStore call).MayGive r ↔
      ∃ answer : Except StoreError call.Answer, answer.mapError .store = r := by
  rw [askStore, Plan.ask, Plan.may_give_bind]
  simp

theorem may_give_ask_store_error (call : Call) :
    (askStore call).MayGive (.error error) ↔ ∃ fault, error = .store fault := by
  rw [may_give_ask_store]
  constructor
  · rintro ⟨answer,hanswer⟩
    cases answer with
    | ok a => exact nomatch hanswer
    | error fault =>
      cases hanswer
      exact ⟨fault,rfl⟩
  · rintro ⟨fault,rfl⟩
    exact ⟨.error fault,rfl⟩

theorem may_give_identify_error (key : NaturalKey) (fetch : Steps Int) :
    (identify key fetch).MayGive (.error error) ↔ fetch.MayGive (.error error) := by
  have hsettle : ∀ attempt, (settleMiss key attempt).MayGive (.error error) ↔
      attempt = .error error := by
    intro attempt
    cases attempt <;> simp [settleMiss]
  rw [identify, Plan.may_give_act]
  constructor
  · rintro ⟨answer,h⟩
    cases answer with
    | some id => simp at h
    | none => simpa [Plan.may_give_bind, hsettle] using h
  · intro h
    exact ⟨none,by simpa [Plan.may_give_bind, hsettle] using h⟩

theorem may_give_spec_for_error {p : Policy} {hash : String}
    (hspec : ∀ spec, p.specText = some spec → Spec.hash spec = .ok hash) :
    (specFor p hash).MayGive (.error error) ↔
      p.specText = none ∧ (error = .unknownSpec hash ∨ ∃ fault, error = .store fault) := by
  unfold specFor
  cases hp : p.specText with
  | some spec =>
    obtain ⟨text,hcanonical,_⟩ := Spec.canonical_of_hash spec hash (hspec spec hp)
    simp [hcanonical]
  | none =>
    have hstore : (askStore (.specByHash hash)).MayGive (.error error) ↔
        ∃ fault, error = .store fault := may_give_ask_store_error _
    have hunknown := (may_give_ask_store (.specByHash hash) (.ok none)).mpr ⟨.ok none,rfl⟩
    rw [Plan.may_give_and_then_error, and_iff_right rfl]
    constructor
    · rintro (hask | ⟨found,_,hfound⟩)
      · exact Or.inr (hstore.mp hask)
      · cases found with
        | some spec => simp at hfound
        | none => exact Or.inl (Except.error.inj ((Plan.may_give_done _ _).mp hfound)).symm
    · rintro (rfl | hask)
      · exact Or.inr ⟨none,hunknown,(Plan.may_give_done _ _).mpr rfl⟩
      · exact Or.inl (hstore.mpr hask)

end Parts

namespace Entity

variable {error : ResolveError}

/-- Where the store alone can fail there is nothing for the client to mend. -/
theorem not_may_reject_of_identify {x : Entity} {key : NaturalKey} {draft : Draft}
    (h : x.resolve = identify key (askStore (.getOrCreate draft))) : ¬ x.MayReject error := by
  rintro ⟨hgive,hclient⟩
  rw [h, may_give_identify_error] at hgive
  obtain ⟨fault,rfl⟩ := (may_give_ask_store_error (.getOrCreate draft)).mp hgive
  contradiction

theorem not_may_reject_cluster {c : Cluster} (h : c.key = .ok c.naturalKey) :
    ¬ (Entity.cluster c).MayReject error :=
  not_may_reject_of_identify (by rw [resolve, resolveCluster, h, resolveKeyed])

theorem not_may_reject_parent_policy {p : ParentPolicy} (h : p.key = .ok p.naturalKey) :
    ¬ (Entity.parentPolicy p).MayReject error :=
  not_may_reject_of_identify (by rw [resolve, resolveParentPolicy, h, resolveKeyed])

theorem may_reject_policy_iff {p : Policy} {key : PolicyKey} (h : p.key = .ok key)
    (hspec : ∀ spec, p.specText = some spec → Spec.hash spec = .ok key.specHash) :
    (Entity.policy p).MayReject error ↔ p.specText = none ∧ error = .unknownSpec key.specHash := by
  have hfetch : (Entity.policy p).resolve.MayGive (.error error) ↔
      (p.specText = none ∧ (error = .unknownSpec key.specHash ∨ ∃ fault, error = .store fault)) ∨
        ∃ spec, (specFor p key.specHash).MayGive (.ok spec) ∧ ∃ fault, error = .store fault := by
    rw [resolve, resolvePolicy, h, resolveKeyed, may_give_identify_error,
      Plan.may_give_and_then_error, may_give_spec_for_error hspec]
    refine or_congr_right (exists_congr fun spec => and_congr_right fun _ => ?_)
    exact may_give_ask_store_error (.getOrCreate (.policy key spec))
  rw [MayReject, hfetch]
  constructor
  · rintro ⟨⟨hnone,rfl | ⟨fault,rfl⟩⟩ | ⟨_,_,fault,rfl⟩,hclient⟩
    · exact ⟨hnone,rfl⟩
    · contradiction
    · contradiction
  · rintro ⟨hnone,rfl⟩
    exact ⟨Or.inl ⟨hnone,Or.inl rfl⟩,rfl⟩

end Entity

end ComplianceIntake.Identity

namespace ComplianceIntake.Event

open ComplianceIntake.Text
open ComplianceIntake.Store
open ComplianceIntake.Identity

namespace ComplianceEvent

variable {e : ComplianceEvent} {hash : String}

theorem forall_mem_entities (P : Entity → Prop) : (∀ x ∈ e.entities, P x) ↔
    P (.cluster e.cluster) ∧ (∀ p, e.parentPolicy = some p → P (.parentPolicy p)) ∧
      P (.policy e.policy) := by
  simp only [entities, List.cons_append, List.forall_mem_cons, List.forall_mem_append,
    List.forall_mem_map, Option.mem_toList]
  exact and_congr_right fun _ => and_congr_right fun _ => and_iff_left (List.forall_mem_nil _)

theorem Valid.keys (h : e.Valid hash) : ∀ x ∈ e.entities, ∃ key, x.key = .ok key := by
  rw [forall_mem_entities]
  refine ⟨⟨_,congrArg (Except.map _) h.cluster⟩,?_,⟨_,congrArg (Except.map _) h.policy⟩⟩
  exact fun p hp => ⟨_,congrArg (Except.map _) (h.parent p hp)⟩

theorem Valid.may_reject_iff (h : e.Valid hash) : ∀ x ∈ e.entities, ∀ error,
    x.MayReject error ↔ ∃ p, x = .policy p ∧ p.specText = none ∧ error = .unknownSpec hash := by
  rw [forall_mem_entities]
  refine ⟨fun error => ?_,fun p hp error => ?_,fun error => ?_⟩
  · simp [Entity.not_may_reject_cluster h.cluster]
  · simp [Entity.not_may_reject_parent_policy (h.parent p hp)]
  · simp [Entity.may_reject_policy_iff h.policy h.spec, Policy.keyWith]

theorem Valid.filled (h : e.Valid hash) : (e.filled hash).Valid hash :=
  h.restated e.policy.spec e.details.timestamp fun _ hs => hs

/-- The event passes all that is done with it before the store is asked, with this key of its policy
from first to last, and what the client may have to mend is an unknown hash alone. -/
structure Settled (e : ComplianceEvent) (key : PolicyKey) : Prop where
  fill : e.policy.fillHash = .ok (e.filled key.specHash).policy
  refill : (e.filled key.specHash).policy.fillHash = .ok (e.filled key.specHash).policy
  keys : ∀ x ∈ e.entities ++ (e.filled key.specHash).entities, ∃ k, x.key = .ok k
  keyPolicy : e.policy.key = .ok key
  keyFilled : (e.filled key.specHash).policy.key = .ok key
  hash : (e.filled key.specHash).policy.specHash = some key.specHash
  trimmed : trim key.specHash = key.specHash
  shape : Spec.isHash key.specHash = true
  valid : (e.filled key.specHash).validate = .ok ()
  validAlone : (e.filled key.specHash).withoutSpec.validate = .ok ()
  may_reject_iff : ∀ x ∈ e.entities ++ (e.filled key.specHash).entities, ∀ error,
    x.MayReject error ↔
      ∃ p, x = .policy p ∧ p.specText = none ∧ error = .unknownSpec key.specHash

/-- At no replica and over no store does a resolution end with another error of the client. -/
theorem Settled.rejected {key : PolicyKey} (h : e.Settled key) {σ : Type} [Backend σ]
    (choice : SpecChoice) (s : Site σ) {x : Entity} {error : ResolveError}
    (hx : x ∈ e.entities ++ (e.filled key.specHash).entities)
    (hrun : (x.resolve.run choice s).value = .error error) (hclient : error.isClientError = true) :
    ∃ p, x = .policy p ∧ p.specText = none ∧ error = .unknownSpec key.specHash := by
  have hgive : x.resolve.MayGive (.error error) := hrun ▸ Plan.may_give_run choice x.resolve s
  exact (h.may_reject_iff x hx error).mp ⟨hgive,hclient⟩

/-- Validation leaves one error of the client open: an unknown hash that comes alone. -/
theorem settled_of_validate (e : ComplianceEvent) (h : e.validate = .ok ()) :
    ∃ key, e.Settled key := by
  obtain ⟨hash,hv⟩ := e.valid_of_validate h
  have haccepted := e.accepted_of_validate h
  refine ⟨e.policy.keyWith hash,?_⟩
  exact {
    fill := hv.fill_hash
    refill := hv.filled.fill_hash
    keys := List.forall_mem_append.mpr ⟨hv.keys,hv.filled.keys⟩
    keyPolicy := hv.policy
    keyFilled := hv.filled.policy
    hash := rfl
    trimmed := Spec.trim_of_is_hash hash hv.shape
    shape := hv.shape
    valid := validate_restated h hv e.policy.spec _ (fun _ hs => hs) haccepted
    validAlone := validate_restated h hv none _ nofun haccepted
    may_reject_iff := List.forall_mem_append.mpr ⟨hv.may_reject_iff,hv.filled.may_reject_iff⟩ }

def hashPadded : ComplianceEvent where
  cluster := { identifier := "east" }
  policy :=
    { name := "r", space := "m", specHash := some " 356a192b7913b04c54574d18c28d46e6395428ab " }

theorem hash_padded_settled : hashPadded.validate = .ok () ∧ ∃ key, hashPadded.Settled key ∧
    (Entity.policy hashPadded.policy).MayReject (.unknownSpec key.specHash) := by
  have hvalid : hashPadded.validate = .ok () := by decide +kernel
  obtain ⟨key,h⟩ := hashPadded.settled_of_validate hvalid
  refine ⟨hvalid,key,h,?_⟩
  exact (h.may_reject_iff _ (by simp [entities]) _).mpr ⟨_,rfl,by decide +kernel,rfl⟩

end ComplianceEvent

end ComplianceIntake.Event
