import ComplianceIntake.Proofs.Event.Labels
import ComplianceIntake.Proofs.Intake.Runs

/-!
# Surrogate ids stand for natural keys

Within a run from an empty ledger, the ids that two receipts name for a cluster,
a parent policy or a policy are equal exactly when the natural keys of their
events are, read off the texts as they were sent. Every event has an id of its
own, and an id is handed out for one thing only.
-/

set_option autoImplicit false

namespace ComplianceIntake.Event

open ComplianceIntake.Store
open ComplianceIntake.Text

/-- The ids that a receipt names, with what they were handed out for. -/
def Receipt.issued (r : Receipt) : List (Role × Int) :=
  [(.event, r.eventId), (.entity .cluster, r.clusterId), (.entity .policy, r.policyId)]
    ++ (r.parentPolicyId.map fun id => (Role.entity .parentPolicy, id)).toList

/-- The ids of two receipts are equal exactly where the keys of their events are. -/
structure IdsMatchKeys (d e : ComplianceEvent) (r s : Receipt) : Prop where
  cluster : r.clusterId = s.clusterId ↔ trim d.cluster.identifier = trim e.cluster.identifier
  parent : ∀ i j, r.parentPolicyId = some i → s.parentPolicyId = some j →
    ∃ p q, d.parentPolicy = some p ∧ e.parentPolicy = some q ∧ (i = j ↔ p.SameIdentity q)
  policy : r.policyId = s.policyId ↔
    trim d.policy.name = trim e.policy.name ∧ trim d.policy.space = trim e.policy.space ∧
      r.event.policy.specHash = s.event.policy.specHash

namespace ComplianceEvent

theorem Recorded.spec_hash {e : ComplianceEvent} {now hash : String} {t : Tables} {r : Receipt}
    (h : e.Recorded now hash t r) : r.event.policy.specHash = some hash := by
  rw [h.event]
  rfl

theorem Recorded.is_some_parent {e : ComplianceEvent} {now hash : String} {t : Tables} {r : Receipt}
    (h : e.Recorded now hash t r) : r.parentPolicyId.isSome = e.parentPolicy.isSome := by
  have hp := h.parent
  generalize e.parentPolicy = p at hp ⊢
  generalize r.parentPolicyId = id at hp ⊢
  cases hp <;> rfl

theorem Recorded.parent_of_some {e : ComplianceEvent} {now hash : String} {t : Tables}
    {r : Receipt} (h : e.Recorded now hash t r) (id : Int) (hid : r.parentPolicyId = some id) :
    ∃ p, e.parentPolicy = some p ∧ t.id? (.parentPolicy p.naturalKey) = some id := by
  have hp := h.parent
  rw [hid] at hp
  cases he : e.parentPolicy with
  | none =>
    rw [he] at hp
    exact nomatch hp
  | some p =>
    rw [he] at hp
    cases hp with
    | some hp => exact ⟨p,rfl,hp⟩

theorem Recorded.issued {e : ComplianceEvent} {now hash : String} {t : Tables} {r : Receipt}
    (h : e.Recorded now hash t r) : ∀ x ∈ r.issued, x ∈ t.issued := by
  intro x hx
  simp only [Receipt.issued, List.mem_append, List.mem_cons, List.not_mem_nil, or_false,
    Option.mem_toList, Option.map_eq_some_iff] at hx
  rcases hx with (rfl | rfl | rfl) | ⟨id,hid,rfl⟩
  · exact t.mem_issued_of_event r.row h.row
  · exact t.mem_issued_of_id? _ _ h.cluster
  · exact t.mem_issued_of_id? _ _ h.policy
  · obtain ⟨p,_,hp⟩ := h.parent_of_some id hid
    exact t.mem_issued_of_id? _ _ hp

theorem Recorded.ids_match_keys {d e : ComplianceEvent} {now now' hash hash' : String} {t : Tables}
    {r s : Receipt} (ht : t.Sound) (hr : d.Recorded now hash t r) (hs : e.Recorded now' hash' t s) :
    IdsMatchKeys d e r s := by
  constructor
  · rw [ht.id_eq_iff hr.cluster hs.cluster]
    simp [Cluster.naturalKey]
  · intro i j hi hj
    obtain ⟨p,hp,hpi⟩ := hr.parent_of_some i hi
    obtain ⟨q,hq,hqj⟩ := hs.parent_of_some j hj
    have hids : i = j ↔ p.SameIdentity q := by
      rw [ht.id_eq_iff hpi hqj, NaturalKey.parentPolicy.injEq, ParentPolicy.natural_key_eq_iff]
    exact ⟨p,q,hp,hq,hids⟩
  · rw [ht.id_eq_iff hr.policy hs.policy, hr.spec_hash, hs.spec_hash]
    simp [Policy.keyWith]

end ComplianceEvent

end ComplianceIntake.Event

namespace ComplianceIntake.Intake

open ComplianceIntake.Event
open ComplianceIntake.Store
open ComplianceIntake.Text

theorem Run.event_ids_eq (r : Run) :
    r.replies.filterMap (fun x => eventIdOf x.2) = r.receipts.map (·.eventId) := by
  rw [Run.receipts, List.map_filterMap]
  congr
  funext x
  cases x.2 <;> rfl

/-- In a run from an empty ledger and empty caches, ids tell natural keys apart and nothing else;
no two events share an id, and no id is handed out for two things. -/
theorem surrogate_ids_iff_natural_keys (ms : List Move) :
    let run := ({} : Run).moves ms
    (∀ p q r s, (p, .ok r) ∈ run.replies → (q, .ok s) ∈ run.replies →
      ∃ d e, p.request.accepted = .ok d ∧ q.request.accepted = .ok e ∧ IdsMatchKeys d e r s) ∧
    (∀ p r, (p, .ok r) ∈ run.replies →
      ∃ e, p.request.accepted = .ok e ∧ r.parentPolicyId.isSome = e.parentPolicy.isSome) ∧
    (run.replies.filterMap fun x => eventIdOf x.2).Nodup ∧
    (∀ p r, (p, .ok r) ∈ run.replies → ∀ x ∈ r.issued, x ∈ run.tables.issued) ∧
    ∀ ms', ∀ x ∈ run.tables.issued, ∀ y ∈ (run.moves ms').tables.issued,
      x.2 = y.2 → x.1 = y.1 := by
  intro run
  have hrun : run.Kept Tables.Sound := Run.kept ms
  have hsound := hrun.fleet.tables
  refine ⟨?_,?_,?_,?_,?_⟩
  · intro p q r s hr hs
    obtain ⟨d,hash,hd,_,hrec⟩ := hrun.answered p r hr
    obtain ⟨e,hash',he,_,hrec'⟩ := hrun.answered q s hs
    exact ⟨d,e,hd,he,hrec.ids_match_keys hsound hrec'⟩
  · intro p r hr
    obtain ⟨e,hash,he,_,hrec⟩ := hrun.answered p r hr
    exact ⟨e,he,hrec.is_some_parent⟩
  · have hn := hsound.events_nodup
    have hrows : run.tables.events.map (·.id) = run.receipts.map (·.eventId) := by
      rw [hrun.events, List.map_map]
      rfl
    rw [Run.event_ids_eq, ← hrows]
    exact hn
  · intro p r hr
    obtain ⟨e,hash,_,_,hrec⟩ := hrun.answered p r hr
    exact hrec.issued
  · intro ms' x hx y hy hid
    have hgrows := Run.grows_moves preserved_sound (entitles_all _) hrun ms'
    have hlater := hrun.moves preserved_sound (entitles_all _) ms'
    have hx' := hgrows.issued hsound x hx
    exact congrArg Prod.fst (hlater.fleet.tables.role_unique x y hx' hy hid)

def spelling : Posting where
  replica := 0
  body := octets "[[\" c \"],[\"p\",\"n\",[\"b\",\" a\"]],[\"q\",\"n\",\"1\"]]"
  moment := ⟨"2024-02-01T10:00:00Z", "01"⟩

def otherSpelling : Posting where
  replica := 1
  body := octets "[[\"c\"],[\"p \",\"n\",[\"a\",\"b\",\"a\"]],[\"q\",\"n\",\"2\"]]"
  moment := ⟨"2024-02-01T10:00:01Z", "02"⟩

theorem surrogate_ids_of_spellings :
    let run := ({} : Run).moves [.post spelling, .post otherSpelling]
    ∃ r s, (spelling, .ok r) ∈ run.replies ∧ (otherSpelling, .ok s) ∈ run.replies ∧
      r.clusterId = s.clusterId := by
  intro run
  have hids := (surrogate_ids_iff_natural_keys [.post spelling, .post otherSpelling]).1
  have hok : run.replies.map (fun x => x.2.toOption.isSome) = [true, true] := by decide +kernel
  have hkeys : spelling.request.accepted.toOption.map (fun e => trim e.cluster.identifier) =
      otherSpelling.request.accepted.toOption.map (fun e => trim e.cluster.identifier) := by
    decide +kernel
  obtain ⟨v,w,hrep⟩ : ∃ v w, run.replies = [(spelling, v), (otherSpelling, w)] := ⟨_,_,rfl⟩
  rw [hrep] at hok
  change ∀ p q r s, (p, .ok r) ∈ run.replies → (q, .ok s) ∈ run.replies → _ at hids
  clear_value run
  cases v with
  | error _ => exact nomatch hok
  | ok r =>
    cases w with
    | error _ => exact nomatch hok
    | ok s =>
      have hr : (spelling, .ok r) ∈ run.replies := by simp [hrep]
      have hs : (otherSpelling, .ok s) ∈ run.replies := by simp [hrep]
      obtain ⟨d,e,hd,he,hmatch⟩ := hids _ _ r s hr hs
      rw [hd, he] at hkeys
      exact ⟨r,s,hr,hs,hmatch.cluster.mpr (Option.some.inj hkeys)⟩

end ComplianceIntake.Intake
