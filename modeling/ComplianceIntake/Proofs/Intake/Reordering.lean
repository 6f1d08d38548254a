import ComplianceIntake.Proofs.Intake.Receipts
import ComplianceIntake.Proofs.Intake.SentSpecs
import ComplianceIntake.Proofs.Intake.StoredRows
import ComplianceIntake.Proofs.Store.Alike

/-!
# The order of requests

Requests that come with their specifications leave the same behind in whatever
order they arrive, and at whichever replicas. Which ids stand for which keys,
what a cluster is displayed as, and in which of its spellings a specification is
stored may depend on the order. The keys do not, nor do the events, once each id
in them is replaced by the key that it stands for in its own ledger.
-/

set_option autoImplicit false

namespace ComplianceIntake.Store

open ComplianceIntake.Event

structure NamedEvent where
  cluster : NaturalKey
  parentPolicy : Option NaturalKey
  policy : NaturalKey
  details : Details

def NamedEvent.keys (n : NamedEvent) : List NaturalKey :=
  n.cluster :: n.parentPolicy.toList ++ [n.policy]

namespace Tables

def keyOf? (t : Tables) (id : Int) : Option NaturalKey :=
  (t.rows.find? (·.2 = id)).map (·.1)

theorem Sound.key_of?_of_id? {t : Tables} (h : t.Sound) {key : NaturalKey} {id : Int}
    (hk : t.id? key = some id) : t.keyOf? id = some key := by
  have hm := t.mem_rows_of_id? key id hk
  rw [keyOf?]
  cases hf : t.rows.find? (·.2 = id) with
  | none =>
    rw [List.find?_eq_none] at hf
    exact absurd (decide_eq_true rfl) (hf _ hm)
  | some row =>
    have hid : row.2 = id := by simpa using List.find?_some hf
    have hrow := List.inj_on_of_nodup_map h.rows_nodup (List.mem_of_find?_eq_some hf) hm hid
    rw [hrow]
    rfl

def parentKey? (t : Tables) : Option Int → Option (Option NaturalKey)
  | none => some none
  | some id => (t.keyOf? id).map some

def named? (t : Tables) (row : EventRow) : Option NamedEvent := do
  let cluster ← t.keyOf? row.record.clusterId
  let parentPolicy ← t.parentKey? row.record.parentPolicyId
  let policy ← t.keyOf? row.record.policyId
  return ⟨cluster, parentPolicy, policy, row.record.details⟩

theorem is_some_id?_iff (t : Tables) (key : NaturalKey) :
    (t.id? key).isSome ↔ key ∈ t.rows.map (·.1) := by
  rw [← Option.ne_none_iff_isSome, ne_eq, id?_eq_none_iff, not_not]

theorem is_some_id?_get_or_create (t : Tables) (draft : Draft) (key : NaturalKey) :
    ((t.getOrCreate draft).2.id? key).isSome ↔ (t.id? key).isSome ∨ key = draft.key := by
  unfold getOrCreate
  split
  · next id hid =>
    rw [id?_update]
    constructor
    · exact Or.inl
    · rintro (hk | rfl)
      · exact hk
      · exact Option.isSome_iff_exists.mpr ⟨id,hid⟩
  · rw [is_some_id?_iff, is_some_id?_iff, ((t.rows_create_perm draft).map _).mem_iff, List.map_cons,
      List.mem_cons, or_comm]

end Tables

end ComplianceIntake.Store

namespace ComplianceIntake.Identity

open ComplianceIntake.Event
open ComplianceIntake.Store

theorem Obtained.is_some_id? {d : Draft} {c c' : Cache} {t t' : Tables} {id : Int}
    (h : Obtained d c t id c' t') (hc : c.Agrees t) (key : NaturalKey) :
    (t'.id? key).isSome ↔ (t.id? key).isSome ∨ key = d.key := by
  cases h with
  | hit h =>
    have hid := hc _ _ (c.mem_entries_of_lookup _ _ h)
    constructor
    · exact Or.inl
    · rintro (hk | rfl)
      · exact hk
      · exact Option.isSome_iff_exists.mpr ⟨id,hid⟩
  | miss h => exact t.is_some_id?_get_or_create d key

/-- Rows are there for the keys of the drafts, and for no others that had none. -/
theorem ObtainedAll.is_some_id? {ds : List Draft} {c c' : Cache} {t t' : Tables}
    (h : ObtainedAll ds c t c' t') (hc : c.Agrees t) (key : NaturalKey) :
    (t'.id? key).isSome ↔ (t.id? key).isSome ∨ key ∈ ds.map Draft.key := by
  induction h with
  | nil c t => simp
  | cons hd _ ih =>
    rw [ih (hd.agrees hc), hd.is_some_id? hc, List.map_cons, List.mem_cons, or_assoc]

end ComplianceIntake.Identity

namespace ComplianceIntake.Event

open ComplianceIntake.Store

namespace ComplianceEvent

def named (e : ComplianceEvent) (hash : String) : NamedEvent where
  cluster := .cluster e.cluster.naturalKey
  parentPolicy := e.parentPolicy.map fun p => .parentPolicy p.naturalKey
  policy := .policy (e.policy.keyWith hash)
  details := e.details

theorem keys_named (e : ComplianceEvent) (hash spec : String) :
    (e.named hash).keys =
      (e.ownerDrafts ++ [Draft.policy (e.policy.keyWith hash) spec]).map Draft.key := by
  simp only [NamedEvent.keys, named, ownerDrafts]
  cases e.parentPolicy <;> rfl

theorem Recorded.named? {e : ComplianceEvent} {now hash : String} {t : Tables} {r : Receipt}
    (h : e.Recorded now hash t r) (ht : t.Sound) :
    t.named? r.row = some ((e.completed now hash).named hash) := by
  have hdetails : r.event.details = (e.completed now hash).details := by
    rw [h.event]
    rfl
  have hparent : t.parentKey? r.parentPolicyId =
      some (e.parentPolicy.map fun p => NaturalKey.parentPolicy p.naturalKey) := by
    have hp := h.parent
    generalize e.parentPolicy = p at hp ⊢
    generalize r.parentPolicyId = id at hp ⊢
    cases hp with
    | none => rfl
    | some hid => simp [Tables.parentKey?, ht.key_of?_of_id? hid]
  simp only [Tables.named?, Receipt.row, ht.key_of?_of_id? h.cluster, ht.key_of?_of_id? h.policy,
    hparent, hdetails, Option.bind_eq_bind, Option.bind_some, Option.pure_def]
  rfl

end ComplianceEvent

end ComplianceIntake.Event

namespace ComplianceIntake.Intake

open ComplianceIntake.Event
open ComplianceIntake.Store
open ComplianceIntake.Identity
open ComplianceIntake.Text

namespace Posting

/-- The posting holds a valid event that comes with its specification. -/
def CarriesSpec (p : Posting) : Prop :=
  ∃ e, p.request.accepted = .ok e ∧ e.policy.specText.isSome

theorem carries_spec_of_spec? {p : Posting} (h : p.spec?.isSome) : p.CarriesSpec := by
  rw [spec?] at h
  cases ha : p.request.accepted with
  | error refusal =>
    rw [ha] at h
    contradiction
  | ok e =>
    rw [ha] at h
    exact ⟨e,ha,h⟩

def named? (p : Posting) : Option NamedEvent :=
  match p.request.accepted with
  | .error _ => none
  | .ok e =>
    match e.policy.identifyingHash with
    | .ok (some hash) => some ((e.completed p.moment.now hash).named hash)
    | _ => none

theorem named?_of_accepted {p : Posting} {e : ComplianceEvent} {hash : String}
    (ha : p.request.accepted = .ok e) (hv : e.Valid hash) :
    p.named? = some ((e.completed p.moment.now hash).named hash) := by
  simp only [named?, ha, hv.identifying]

/-- The same body, arriving at the same time if it names none. The replica, the headers, the
request's id and the choice among stored specifications may differ. -/
structure Same (p q : Posting) : Prop where
  body : q.body = p.body
  broken : q.broken = p.broken
  now : ∀ e, ComplianceEvent.read? p.body = some e → e.details.timestamp = none →
    q.moment.now = p.moment.now

theorem read_body_congr {r s : Request} (hbody : s.body = r.body) (hbroken : s.broken = r.broken) :
    s.readBody = r.readBody := by
  cases r
  cases s
  cases hbody
  cases hbroken
  rfl

variable {p q : Posting}

theorem Same.accepted (h : p.Same q) : q.request.accepted = p.request.accepted := by
  have hread : q.request.readBody = p.request.readBody := read_body_congr h.body h.broken
  rw [Request.accepted, Request.accepted, hread]

theorem Same.spec? (h : p.Same q) : q.spec? = p.spec? := by
  rw [Posting.spec?, Posting.spec?, h.accepted]

theorem Same.named? (h : p.Same q) : q.named? = p.named? := by
  rw [Posting.named?, Posting.named?, h.accepted]
  cases ha : p.request.accepted with
  | error refusal => rfl
  | ok e =>
    obtain ⟨body,hbody,hread,_⟩ := (p.request.accepted_eq_ok_iff e).mp ha
    obtain ⟨rfl,_⟩ := (p.request.read_body_eq_ok_iff body).mp hbody
    have hnow : e.details.timestamp.getD q.moment.now = e.details.timestamp.getD p.moment.now := by
      cases ht : e.details.timestamp with
      | some text => rfl
      | none => exact h.now e hread ht
    simp only [ComplianceEvent.completed, hnow]

end Posting

namespace Run

variable {r : Run} {p : Posting}

theorem posted_moves (r : Run) (ps : List Posting) :
    (r.moves (ps.map .post)).replies.map (·.1) = r.replies.map (·.1) ++ ps := by
  induction ps generalizing r with
  | nil => simp [moves]
  | cons p ps ih =>
    show ((r.move (.post p)).moves (ps.map .post)).replies.map _ = _
    rw [ih]
    simp [move]

/-- A posting that carries its specification is recorded, and its keys are there then. -/
theorem move_of_carries_spec (hr : r.Kept Tables.Sound) (hon : r.fleet.store.available = true)
    (hp : p.CarriesSpec) :
    (r.move (.post p)).fleet.store.available = true ∧
    (∃ receipt, (r.move (.post p)).replies = r.replies ++ [(p, .ok receipt)]) ∧
    ∀ key, ((r.move (.post p)).tables.id? key).isSome ↔
      (r.tables.id? key).isSome ∨ ∃ n ∈ p.named?, key ∈ n.keys := by
  obtain ⟨e,ha,hspec⟩ := hp
  obtain ⟨hash,hv⟩ := p.request.valid_of_accepted e ha
  rcases post_obtains hr.fleet hon ha hv with
    ⟨receipt,hval,⟨spec,t,_,hgains,htables,_⟩,_,_⟩ | ⟨_,_,hnone,_⟩
  · refine ⟨hgains.available.trans hon,⟨receipt,?_⟩,?_⟩
    · show r.replies ++ [(p, (r.fleet.post p).value)] = _
      rw [hval]
    · intro key
      have hkey := hgains.obtained.is_some_id? (hr.fleet.caches p.replica) key
      rw [← e.keys_named] at hkey
      have hnamed : (∃ n ∈ p.named?, key ∈ n.keys) ↔ key ∈ (e.named hash).keys := by
        rw [Posting.named?_of_accepted ha hv]
        simp only [Option.mem_def, Option.some.injEq, exists_eq_left']
        rfl
      rw [hnamed]
      show ((r.fleet.post p).fleet.store.tables.id? key).isSome ↔ _
      rw [htables]
      exact hkey
  · -- Only a hash that comes alone may be unknown.
    rw [hnone] at hspec
    contradiction

theorem moves_of_carries_spec (ps : List Posting) (hps : ∀ p ∈ ps, p.CarriesSpec)
    (hr : r.Kept Tables.Sound) (hon : r.fleet.store.available = true)
    (hok : ∀ x ∈ r.replies, ∃ receipt, x.2 = .ok receipt) :
    (∀ x ∈ (r.moves (ps.map .post)).replies, ∃ receipt, x.2 = .ok receipt) ∧
    ∀ key, ((r.moves (ps.map .post)).tables.id? key).isSome ↔
      (r.tables.id? key).isSome ∨ ∃ p ∈ ps, ∃ n ∈ p.named?, key ∈ n.keys := by
  induction ps generalizing r with
  | nil => exact ⟨hok,by simp [moves]⟩
  | cons p ps ih =>
    obtain ⟨hp,hrest⟩ := List.forall_mem_cons.mp hps
    obtain ⟨hon',⟨receipt,hreplies⟩,hkeys⟩ := move_of_carries_spec hr hon hp
    have hok' : ∀ x ∈ (r.move (.post p)).replies, ∃ receipt, x.2 = .ok receipt := by
      rw [hreplies]
      exact List.forall_mem_append.mpr ⟨hok,List.forall_mem_singleton.mpr ⟨receipt,rfl⟩⟩
    obtain ⟨hall,hrestKeys⟩ := ih hrest (hr.move preserved_sound (entitles_all _) _) hon' hok'
    refine ⟨hall,?_⟩
    intro key
    show (((r.move (.post p)).moves (ps.map .post)).tables.id? key).isSome ↔ _
    rw [hrestKeys, hkeys, or_assoc]
    simp

/-- What a run of postings that carry their specifications leaves depends on the postings alone. -/
theorem named_of_carries_spec (ps : List Posting) (hps : ∀ p ∈ ps, p.CarriesSpec) :
    let run := ({} : Run).moves (ps.map .post)
    run.replies.map (·.1) = ps ∧ (∀ x ∈ run.replies, statusOf x.2 = 201) ∧
    (∀ key, (run.tables.id? key).isSome ↔ ∃ n, some n ∈ ps.map Posting.named? ∧ key ∈ n.keys) ∧
    run.tables.events.map run.tables.named? = ps.map Posting.named? := by
  intro run
  have hrun : run.Kept Tables.Sound := Run.kept _
  have hposted : run.replies.map (·.1) = ps := posted_moves {} ps
  have hempty : ∀ x ∈ ({} : Run).replies, ∃ receipt, x.2 = .ok receipt :=
    fun _ hx => absurd hx List.not_mem_nil
  obtain ⟨hok,hkeys⟩ := moves_of_carries_spec ps hps (Run.kept_empty Tables.sound_empty) rfl hempty
  have hnamed : ∀ x ∈ run.replies,
      x.2.toOption.map (run.tables.named? ∘ Receipt.row) = some x.1.named? := by
    rintro ⟨p,v⟩ hx
    obtain ⟨receipt,rfl⟩ := hok _ hx
    obtain ⟨e,hash,ha,hv,hrec⟩ := hrun.answered p receipt hx
    have hrow := hrec.named? hrun.fleet.tables
    exact congrArg some (hrow.trans (Posting.named?_of_accepted ha hv).symm)
  refine ⟨hposted,?_,?_,?_⟩
  · intro x hx
    obtain ⟨receipt,hreceipt⟩ := hok x hx
    rw [hreceipt]
    rfl
  · intro key
    have hnone : ({} : Run).tables.id? key = none := by cases key <;> rfl
    rw [hkeys key, hnone]
    simp only [Option.isSome_none, Bool.false_eq_true, false_or, List.mem_map, Option.mem_def]
    constructor
    · rintro ⟨p,hp,n,hn,hkey⟩
      exact ⟨n,⟨p,hp,hn⟩,hkey⟩
    · rintro ⟨n,⟨p,hp,hn⟩,hkey⟩
      exact ⟨p,hp,n,hn,hkey⟩
  · rw [hrun.events, ← hposted, List.map_map, List.map_map, receipts, List.map_filterMap,
      List.filterMap_congr hnamed, List.filterMap_eq_map']
    rfl

end Run

theorem Posting.is_some_named? {p : Posting} (h : p.CarriesSpec) : p.named?.isSome := by
  obtain ⟨e,ha,_⟩ := h
  obtain ⟨hash,hv⟩ := p.request.valid_of_accepted e ha
  rw [named?_of_accepted ha hv]
  rfl

theorem Posting.carries_spec_of_same {ps qs : List Posting} (h : List.Forall₂ Posting.Same ps qs)
    (hps : ∀ p ∈ ps, p.CarriesSpec) : ∀ q ∈ qs, q.CarriesSpec := by
  induction h with
  | nil => exact List.forall_mem_nil _
  | cons hpq _ ih =>
    obtain ⟨⟨e,ha,hspec⟩,hrest⟩ := List.forall_mem_cons.mp hps
    exact List.forall_mem_cons.mpr ⟨⟨e,hpq.accepted.trans ha,hspec⟩,ih hrest⟩

theorem Posting.sent_iff_of_same {ps ps' qs : List Posting} (hperm : ps'.Perm ps)
    (h : List.Forall₂ Posting.Same ps' qs) (spec : String) :
    Sent (qs.map .post) spec ↔ Sent (ps.map .post) spec := by
  have hmap : List.Forall₂ Eq (qs.map Posting.spec?) (ps'.map Posting.spec?) := by
    rw [List.forall₂_map_left_iff, List.forall₂_map_right_iff]
    exact (h.imp fun _ _ hs => hs.spec?).flip
  rw [List.forall₂_eq_eq_eq] at hmap
  rw [sent_posts_iff, sent_posts_iff, hmap, (hperm.map Posting.spec?).mem_iff]

/-- Valid events that come with their specifications are all recorded, in whatever order and at
whichever replicas they arrive. The ledgers then have the same keys and the same events, named by
keys. The texts of a policy have the policy's hash in both, and so one canonical text unless SHA-1
has a collision among the specifications that were sent. -/
theorem reordered_alike (ps ps' qs : List Posting) (hps : ∀ p ∈ ps, p.CarriesSpec)
    (hperm : ps'.Perm ps) (hsame : List.Forall₂ Posting.Same ps' qs) :
    let first := ({} : Run).moves (ps.map .post)
    let second := ({} : Run).moves (qs.map .post)
    (first.replies.map (·.1) = ps ∧ ∀ x ∈ first.replies, statusOf x.2 = 201) ∧
    (second.replies.map (·.1) = qs ∧ ∀ x ∈ second.replies, statusOf x.2 = 201) ∧
    (∀ key, (first.tables.id? key).isSome ↔ (second.tables.id? key).isSome) ∧
    (∀ row ∈ first.tables.policies, ∀ row' ∈ second.tables.policies, row.key = row'.key →
      SpecRel.hashed row.key.specHash row.spec row'.spec) ∧
    (Spec.CollisionFree (Sent (ps.map .post)) →
      ∀ row ∈ first.tables.policies, ∀ row' ∈ second.tables.policies, row.key = row'.key →
        SpecRel.canonical row.key.specHash row.spec row'.spec) ∧
    (∀ n ∈ first.tables.events.map first.tables.named?, n.isSome) ∧
    (first.tables.events.map first.tables.named?).Perm
      (second.tables.events.map second.tables.named?) := by
  intro first second
  have hqs := Posting.carries_spec_of_same hsame fun p hp => hps p (hperm.mem_iff.mp hp)
  have hmap : ps'.map Posting.named? = qs.map Posting.named? := by
    have heq : List.Forall₂ Eq (ps'.map Posting.named?) (qs.map Posting.named?) := by
      rw [List.forall₂_map_left_iff, List.forall₂_map_right_iff]
      exact hsame.imp fun _ _ h => h.named?.symm
    rwa [List.forall₂_eq_eq_eq] at heq
  have hnames : (ps.map Posting.named?).Perm (qs.map Posting.named?) :=
    hmap ▸ (hperm.map Posting.named?).symm
  obtain ⟨hposted,hcreated,hkeys,hevents⟩ := Run.named_of_carries_spec ps hps
  obtain ⟨hposted',hcreated',hkeys',hevents'⟩ := Run.named_of_carries_spec qs hqs
  have hhashed : ∀ row ∈ first.tables.policies, ∀ row' ∈ second.tables.policies,
      row.key = row'.key → SpecRel.hashed row.key.specHash row.spec row'.spec := by
    intro row hrow row' hrow' hkey
    have hspec := ((Run.kept_normal _).fleet.tables.policies row hrow).2
    have hspec' := ((Run.kept_normal _).fleet.tables.policies row' hrow').2
    exact ⟨hspec,hkey ▸ hspec'⟩
  refine ⟨⟨hposted,hcreated⟩,⟨hposted',hcreated'⟩,?_,hhashed,?_,?_,?_⟩
  · intro key
    rw [hkeys, hkeys']
    simp only [hnames.mem_iff]
  · intro hfree row hrow row' hrow' hkey
    have hsent : Sent (ps.map .post) row.spec := specs_sent _ row hrow
    have hsent' : Sent (ps.map .post) row'.spec :=
      (Posting.sent_iff_of_same hperm hsame _).mp (specs_sent _ row' hrow')
    exact SpecRel.canonical_of_hashed hfree (hhashed row hrow row' hrow' hkey) hsent hsent'
  · rw [hevents]
    exact List.forall_mem_map.mpr fun p hp => Posting.is_some_named? (hps p hp)
  · rw [hevents, hevents']
    exact hnames

/-- Three events of which two have one policy, the other way round and at one replica. -/
theorem reordered_alike_of_spellings :
    let ps := [spelling, specified "n" "2", specified "n" " 1"]
    let first := ({} : Run).moves (ps.map .post)
    let second := ({} : Run).moves ((ps.reverse.map fun p => { p with replica := 0 }).map .post)
    first.tables.policies.map (·.spec) = ["1", "2"] ∧
    second.tables.policies.map (·.spec) = [" 1", "2"] ∧
    (∀ x ∈ second.replies, statusOf x.2 = 201) ∧
    (∀ row ∈ first.tables.policies, ∀ row' ∈ second.tables.policies, row.key = row'.key →
      SpecRel.canonical row.key.specHash row.spec row'.spec) ∧
    (first.tables.events.map first.tables.named?).Perm
      (second.tables.events.map second.tables.named?) := by
  intro ps first second
  have hspecs : ps.map Posting.spec? = [some "1", some "2", some " 1"] := by decide +kernel
  have hcarries : ∀ p ∈ ps, p.CarriesSpec := by
    intro p hp
    apply Posting.carries_spec_of_spec?
    have hsome : ∀ spec ∈ [some "1", some "2", some " 1"], spec.isSome := by decide
    exact hsome _ (hspecs ▸ List.mem_map_of_mem hp)
  have hsame : List.Forall₂ Posting.Same ps.reverse
      (ps.reverse.map fun p => { p with replica := 0 }) := by
    rw [List.forall₂_map_right_iff]
    exact List.forall₂_same.mpr fun _ _ => ⟨rfl,rfl,fun _ _ _ => rfl⟩
  have hfree : Spec.CollisionFree (Sent (ps.map .post)) :=
    collision_free_of_posts hspecs (by decide +kernel)
  obtain ⟨_,⟨_,hcreated⟩,_,_,hcanonical,_,hevents⟩ :=
    reordered_alike ps _ _ hcarries ps.reverse_perm hsame
  exact ⟨by decide +kernel,by decide +kernel,hcreated,hcanonical hfree,hevents⟩

end ComplianceIntake.Intake
