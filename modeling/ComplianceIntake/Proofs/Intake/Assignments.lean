import ComplianceIntake.Proofs.Intake.Effects

/-!
# Ids from a cache that may be wrong

Nothing is assumed of the cache here. For the id of a key a request takes what
the cache has, or else what the ledger gives, and remembers only the latter. So
each id in the row of an event is the one that the ledger has for its key, except
where the cache had another one when the request came.
-/

set_option autoImplicit false

namespace ComplianceIntake.Store

open ComplianceIntake.Event

namespace Tables

variable {draft : Draft} {key : NaturalKey}

theorem id?_create_of_ne (t : Tables) (h : key ≠ draft.key) :
    (t.create draft).id? key = t.id? key := by
  cases draft <;> cases key <;>
    simp_all [id?, create, Draft.key, cluster?, parentPolicy?, policy?, List.find?_append, eq_comm]

theorem id?_get_or_create_of_ne (t : Tables) (h : key ≠ draft.key) :
    (t.getOrCreate draft).2.id? key = t.id? key := by
  unfold getOrCreate
  split
  · exact t.id?_update draft key
  · exact t.id?_create_of_ne h

end Tables

end ComplianceIntake.Store

namespace ComplianceIntake.Identity

open ComplianceIntake.Event
open ComplianceIntake.Store
open ComplianceIntake.Journal

/-- The cache has another id for the key than the tables have. -/
def Cache.Stale (c : Cache) (t : Tables) (key : NaturalKey) : Prop :=
  ∃ id, c.lookup key = some id ∧ t.id? key ≠ some id

theorem Cache.Agrees.not_stale {c : Cache} {t : Tables} (h : c.Agrees t) (key : NaturalKey) :
    ¬ c.Stale t key := by
  rintro ⟨id,hlookup,hid⟩
  exact hid (h key id (c.mem_entries_of_lookup key id hlookup))

theorem Cache.stale_insert_iff (c : Cache) (t : Tables) (d : Draft) {key : NaturalKey}
    (hne : key ≠ d.key) :
    (c.insert d.key (t.getOrCreate d).1).Stale (t.getOrCreate d).2 key ↔ c.Stale t key := by
  rw [Stale, Stale, c.lookup_insert_of_ne _ hne, t.id?_get_or_create_of_ne hne]

/-- Ids are taken for keys, one after the other: from the cache, or else from the ledger, in which
case they are remembered. -/
inductive Assigned : List (NaturalKey × Int) → Cache → Tables → Cache → Tables → Prop
  | nil (c : Cache) (t : Tables) : Assigned [] c t c t
  | hit {key : NaturalKey} {id : Int} {xs : List (NaturalKey × Int)} {c c' : Cache}
      {t t' : Tables} (h : c.lookup key = some id) (rest : Assigned xs c t c' t') :
      Assigned ((key, id) :: xs) c t c' t'
  | miss {d : Draft} {xs : List (NaturalKey × Int)} {c c' : Cache} {t t' : Tables}
      (h : c.lookup d.key = none)
      (rest : Assigned xs (c.insert d.key (t.getOrCreate d).1) (t.getOrCreate d).2 c' t') :
      Assigned ((d.key, (t.getOrCreate d).1) :: xs) c t c' t'

namespace Assigned

variable {xs ys : List (NaturalKey × Int)} {c c' c'' : Cache} {t t' t'' : Tables}

theorem append (h : Assigned xs c t c' t') (h' : Assigned ys c' t' c'' t'') :
    Assigned (xs ++ ys) c t c'' t'' := by
  induction h with
  | nil c t => exact h'
  | hit h _ ih => exact .hit h (ih h')
  | miss h _ ih => exact .miss h (ih h')

theorem grows (h : Assigned xs c t c' t') : t.Grows t' := by
  induction h with
  | nil c t => exact .refl t
  | hit _ _ ih => exact ih
  | @miss d _ _ _ t _ _ _ ih => exact (t.grows_get_or_create d).trans ih

theorem id?_of_not_mem (h : Assigned xs c t c' t') {key : NaturalKey}
    (hkey : key ∉ xs.map (·.1)) : t'.id? key = t.id? key := by
  induction h with
  | nil c t => rfl
  | hit _ _ ih => exact ih fun hm => hkey (List.mem_cons_of_mem _ hm)
  | @miss d _ _ _ t _ _ _ ih =>
    rw [List.map_cons, List.mem_cons, not_or] at hkey
    rw [ih hkey.2, t.id?_get_or_create_of_ne hkey.1]

/-- In the end the tables have the id that was taken for a key, unless the cache had another one
at the outset. -/
theorem id?_eq_iff (h : Assigned xs c t c' t') (hkeys : (xs.map (·.1)).Nodup) :
    ∀ x ∈ xs, t'.id? x.1 = some x.2 ↔ ¬ c.Stale t x.1 := by
  induction h with
  | nil c t => exact fun x hx => absurd hx List.not_mem_nil
  | @hit key id xs c _ t _ h rest ih =>
    obtain ⟨hfirst,hrest⟩ := List.nodup_cons.mp hkeys
    rw [List.forall_mem_cons]
    refine ⟨?_,ih hrest⟩
    rw [rest.id?_of_not_mem hfirst]
    simp [Cache.Stale, h]
  | @miss d xs c _ t _ h rest ih =>
    obtain ⟨hfirst,hrest⟩ := List.nodup_cons.mp hkeys
    rw [List.forall_mem_cons]
    constructor
    · rw [rest.id?_of_not_mem hfirst]
      simp [Cache.Stale, h, t.id?_get_or_create_self d]
    · intro x hx
      have hmem : x.1 ∈ xs.map (·.1) := List.mem_map_of_mem hx
      have hne : x.1 ≠ d.key := fun heq => hfirst (heq ▸ hmem)
      rw [ih hrest x hx, c.stale_insert_iff t d hne]

theorem mem_entries (h : Assigned xs c t c' t') {key : NaturalKey} {id : Int}
    (hm : (key, id) ∈ c'.entries) : (key, id) ∈ c.entries ∨ t'.id? key = some id := by
  induction h with
  | nil c t => exact Or.inl hm
  | hit _ _ ih => exact ih hm
  | @miss d _ c _ t _ _ rest ih =>
    rcases ih hm with hm | hid
    · rcases List.mem_cons.mp hm with he | hm
      · cases he
        exact Or.inr (rest.grows.ids _ _ (t.id?_get_or_create_self d))
      · exact Or.inl (List.mem_filter.mp hm).1
    · exact Or.inr hid

end Assigned

end ComplianceIntake.Identity

namespace ComplianceIntake.Event

open ComplianceIntake.Store

def ComplianceEvent.keys (e : ComplianceEvent) (hash : String) : List NaturalKey :=
  .cluster e.cluster.naturalKey ::
    ((e.parentPolicy.map fun p => NaturalKey.parentPolicy p.naturalKey).toList ++
      [.policy (e.policy.keyWith hash)])

theorem ComplianceEvent.zip_keys (e : ComplianceEvent) (hash : String) {clusterId policyId : Int}
    {parentId : Option Int} (h : parentId.isSome = e.parentPolicy.isSome) :
    (e.keys hash).zip (clusterId :: (parentId.toList ++ [policyId])) =
      [(.cluster e.cluster.naturalKey, clusterId)] ++
        ((e.parentPolicy.map fun p => NaturalKey.parentPolicy p.naturalKey).toList.zip
          parentId.toList ++ [(.policy (e.policy.keyWith hash), policyId)]) := by
  have hlength : (e.parentPolicy.map fun p => NaturalKey.parentPolicy p.naturalKey).toList.length =
      parentId.toList.length := by
    rw [Option.length_toList, Option.length_toList, h, Option.isSome_map]
  rw [keys, List.zip_cons_cons, List.zip_append hlength]
  rfl

theorem ComplianceEvent.nodup_keys (e : ComplianceEvent) (hash : String) : (e.keys hash).Nodup := by
  cases hp : e.parentPolicy <;> simp [keys, hp]

end ComplianceIntake.Event

namespace ComplianceIntake.Store

def EventRecord.ids (record : EventRecord) : List Int :=
  record.clusterId :: (record.parentPolicyId.toList ++ [record.policyId])

end ComplianceIntake.Store

namespace ComplianceIntake.Identity

open ComplianceIntake.Event
open ComplianceIntake.Store
open ComplianceIntake.Journal

def Assigns {ε : Type} (choice : SpecChoice) (key : NaturalKey) (p : Plan Note (Except ε Int)) :
    Prop :=
  ∀ s : Site Ledger,
    (∃ id s', p.result choice s = (.ok id, s') ∧
      Assigned [(key, id)] s.cache s.store.tables s'.cache s'.store.tables) ∨
    ∃ e s', p.result choice s = (.error e, s') ∧
      Assigned [] s.cache s.store.tables s'.cache s'.store.tables

theorem assigns_resolve (choice : SpecChoice) {x : Entity} {key : NaturalKey} (h : x.Keyed key) :
    Assigns choice key x.resolve := by
  intro s
  obtain ⟨fetch,heq,hfetch,hdown⟩ := resolve_eq_identify choice h
  rw [heq]
  cases hl : s.cache.lookup key with
  | some id => exact Or.inl ⟨id,s,result_identify_hit choice hl,.hit hl (.nil _ _)⟩
  | none =>
    cases hon : s.store.available with
    | false => exact Or.inr ⟨_,s,result_identify_error choice hl (hdown s hon),.nil _ _⟩
    | true =>
      obtain ⟨s',hresult,hs'⟩ := hfetch s _ _ ⟨rfl,rfl,hon⟩
      cases hd : x.draft choice s.store.tables with
      | error e =>
        simp only [Entity.asked, hd] at hresult hs'
        refine Or.inr ⟨e,s',result_identify_error choice hl hresult,?_⟩
        rw [hs'.cache, hs'.tables]
        exact .nil _ _
      | ok d =>
        simp only [Entity.asked, hd] at hresult hs'
        have hkey := h.draft_key hd
        subst hkey
        refine Or.inl ⟨_,_,result_identify_ok choice hl hresult,?_⟩
        rw [hs'.cache, hs'.tables]
        exact .miss hl (.nil _ _)

end ComplianceIntake.Identity

namespace ComplianceIntake.Intake

open ComplianceIntake.Event
open ComplianceIntake.Store
open ComplianceIntake.Identity

variable (choice : SpecChoice)

theorem assigns_resolve_for {x : Entity} {key : NaturalKey} (h : x.Keyed key) :
    Assigns choice key (resolveFor x) := by
  intro s
  rw [resolveFor, Plan.result_bind]
  rcases assigns_resolve choice h s with ⟨id,s',hres,hx⟩ | ⟨e,s',hres,hx⟩
  · rw [hres]
    exact Or.inl ⟨id,s',rfl,hx⟩
  · rw [hres]
    cases e <;> exact Or.inr ⟨_,s',rfl,hx⟩

theorem resolve_parent_assigned {e : ComplianceEvent} {hash : String} (h : e.Valid hash)
    (s : Site Ledger) :
    (∃ id s', (resolveParent e.parentPolicy).result choice s = (.ok id, s') ∧
      id.isSome = e.parentPolicy.isSome ∧
      Assigned ((e.parentPolicy.map fun p => NaturalKey.parentPolicy p.naturalKey).toList.zip
        id.toList) s.cache s.store.tables s'.cache s'.store.tables) ∨
    ∃ r s', (resolveParent e.parentPolicy).result choice s = (.error r, s') ∧
      Assigned [] s.cache s.store.tables s'.cache s'.store.tables := by
  cases hp : e.parentPolicy with
  | none => exact Or.inl ⟨none,s,rfl,rfl,.nil _ _⟩
  | some p =>
    rcases assigns_resolve_for choice (h.keyed_parent hp) s with
      ⟨id,s',hres,hx⟩ | ⟨r,s',hres,hx⟩
    · exact Or.inl ⟨some id,s',Plan.result_and_then_ok choice _ hres,rfl,hx⟩
    · exact Or.inr ⟨r,s',Plan.result_and_then_error choice _ hres,hx⟩

/-- Recording a valid event takes ids for its keys and inserts the row with them, or it fails after
it has taken some. -/
theorem record_assigned {e : ComplianceEvent} {hash : String} (h : e.Valid hash)
    (s : Site Ledger) :
    (∃ r s' t, (record e).result choice s = (.ok r, s') ∧
      r.parentPolicyId.isSome = e.parentPolicy.isSome ∧
      Assigned ((e.keys hash).zip r.row.record.ids) s.cache s.store.tables s'.cache t ∧
      r.row.id = (t.insertEvent r.row.record).1 ∧
      s'.store.tables = (t.insertEvent r.row.record).2 ∧ r.event = e.withoutSpec) ∨
    ∃ refusal s' xs, (record e).result choice s = (.error refusal, s') ∧
      Assigned xs s.cache s.store.tables s'.cache s'.store.tables := by
  unfold record
  rcases assigns_resolve_for choice h.keyed_cluster s with
    ⟨clusterId,s₁,hres₁,hx₁⟩ | ⟨r,s₁,hres₁,hx₁⟩
  · simp only [Plan.result_and_then_ok choice _ hres₁]
    rcases resolve_parent_assigned choice h s₁ with
      ⟨parentId,s₂,hres₂,hsome,hx₂⟩ | ⟨r,s₂,hres₂,hx₂⟩
    · simp only [Plan.result_and_then_ok choice _ hres₂]
      rcases assigns_resolve_for choice h.keyed_policy s₂ with
        ⟨policyId,s₃,hres₃,hx₃⟩ | ⟨r,s₃,hres₃,hx₃⟩
      · simp only [Plan.result_and_then_ok choice _ hres₃]
        have hx := hx₁.append (hx₂.append hx₃)
        cases hon : s₃.store.available with
        | true =>
          have hinsert := result_insert_event choice ⟨clusterId, parentId, policyId, e.details⟩ hon
          simp only [Plan.result_and_then_ok choice _ hinsert]
          rw [← e.zip_keys hash hsome] at hx
          exact Or.inl ⟨_,_,s₃.store.tables,rfl,hsome,hx,rfl,rfl,rfl⟩
        | false =>
          have hinsert := result_insert_event_unavailable choice
            ⟨clusterId, parentId, policyId, e.details⟩ hon
          exact Or.inr ⟨_,s₃,_,Plan.result_and_then_error choice _ hinsert,hx⟩
      · exact Or.inr ⟨r,s₃,_,Plan.result_and_then_error choice _ hres₃,
          hx₁.append (hx₂.append hx₃)⟩
    · exact Or.inr ⟨r,s₂,_,Plan.result_and_then_error choice _ hres₂,hx₁.append hx₂⟩
  · exact Or.inr ⟨r,s₁,_,Plan.result_and_then_error choice _ hres₁,hx₁⟩

end ComplianceIntake.Intake
