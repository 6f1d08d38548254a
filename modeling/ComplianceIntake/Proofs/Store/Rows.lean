import Mathlib.Data.List.Nodup
import Mathlib.Data.List.Range
import ComplianceIntake.Store.Ledger

/-!
# The rows of a ledger

The tables seen as one list of natural keys with their ids, and as one list of
everything an id was ever handed out for. In sound tables a key has one row,
and the ids that were handed out are the numbers from one to the last id, each
of them once. Creating a row and inserting an event keep tables sound, so two
keys never share an id and no event has the id of a row.
-/

set_option autoImplicit false

namespace ComplianceIntake.Store

open ComplianceIntake.Event

theorem mem_of_find?_key {κ β : Type} [DecidableEq κ] (l : List (κ × β)) (key : κ) (value : β)
    (h : (l.find? (·.1 = key)).map (·.2) = some value) : (key, value) ∈ l := by
  obtain ⟨⟨k,v⟩,hf,rfl⟩ := Option.map_eq_some_iff.mp h
  have hk : k = key := by simpa using List.find?_some hf
  exact hk ▸ List.mem_of_find?_eq_some hf

inductive Role where
  | entity (kind : Kind)
  | event
  deriving DecidableEq, Repr

namespace Tables

def rows (t : Tables) : List (NaturalKey × Int) :=
  t.clusters.map (fun r => (.cluster r.key, r.id))
    ++ t.parentPolicies.map (fun r => (.parentPolicy r.key, r.id))
    ++ t.policies.map (fun r => (.policy r.key, r.id))

/-- Every id in the tables, with what it was handed out for. -/
def issued (t : Tables) : List (Role × Int) :=
  t.rows.map (fun r => (.entity r.1.kind, r.2)) ++ t.events.map (fun r => (.event, r.id))

def firstIds (n : Nat) : List Int := (List.range n).map fun i : Nat => (i : Int) + 1

structure Sound (t : Tables) : Prop where
  keys : (t.rows.map (·.1)).Nodup
  numbered : ∃ n : Nat, t.lastId = n ∧ (t.issued.map (·.2)).Perm (firstIds n)

theorem first_ids_nodup (n : Nat) : (firstIds n).Nodup := by
  apply List.Nodup.map _ List.nodup_range
  intro i j h
  have hij : (i : Int) + 1 = (j : Int) + 1 := h
  omega

theorem first_ids_succ (n : Nat) : (firstIds (n + 1)).Perm (((n : Int) + 1) :: firstIds n) := by
  rw [firstIds, List.range_succ, List.map_append]
  exact List.perm_append_comm

theorem sound_empty : Sound {} := by
  constructor
  · exact List.nodup_nil
  · exact ⟨0,rfl,List.Perm.refl _⟩

theorem id?_eq_find? (t : Tables) (key : NaturalKey) :
    t.id? key = (t.rows.find? (·.1 = key)).map (·.2) := by
  have hf : ∀ {β : Type} (rows : List β), rows.find? (fun _ => false) = none := by
    intro β rows
    simp [List.find?_eq_none]
  cases key <;>
    simp [id?, cluster?, parentPolicy?, policy?, rows, List.find?_append, List.find?_map,
      Function.comp_def, hf]

theorem mem_rows_of_id? (t : Tables) (key : NaturalKey) (id : Int) (h : t.id? key = some id) :
    (key, id) ∈ t.rows := by
  rw [id?_eq_find?] at h
  exact mem_of_find?_key t.rows key id h

theorem id?_eq_none_iff (t : Tables) (key : NaturalKey) :
    t.id? key = none ↔ key ∉ t.rows.map (·.1) := by
  rw [id?_eq_find?, Option.map_eq_none_iff, List.find?_eq_none]
  simp only [List.mem_map, not_exists, not_and, decide_eq_true_eq]

theorem Sound.id?_eq_some_iff {t : Tables} (h : t.Sound) (key : NaturalKey) (id : Int) :
    t.id? key = some id ↔ (key, id) ∈ t.rows := by
  constructor
  · exact t.mem_rows_of_id? key id
  · intro hm
    cases hi : t.id? key with
    | none => exact absurd (List.mem_map_of_mem hm) ((t.id?_eq_none_iff key).mp hi)
    | some i =>
      have hmi := t.mem_rows_of_id? key i hi
      have he := List.inj_on_of_nodup_map h.keys hm hmi rfl
      simp only [Prod.mk.injEq, true_and] at he
      rw [he]

theorem Sound.issued_nodup {t : Tables} (h : t.Sound) : (t.issued.map (·.2)).Nodup := by
  obtain ⟨n,_,hp⟩ := h.numbered
  exact hp.nodup_iff.mpr (first_ids_nodup n)

theorem Sound.issued_le {t : Tables} (h : t.Sound) : ∀ x ∈ t.issued, x.2 ≤ t.lastId := by
  intro x hx
  obtain ⟨n,hn,hp⟩ := h.numbered
  have hm : x.2 ∈ firstIds n := hp.mem_iff.mp (List.mem_map_of_mem hx)
  obtain ⟨i,hi,hxi⟩ := List.mem_map.mp hm
  have hlt := List.mem_range.mp hi
  omega

/-- An id is handed out once, so it tells what it was handed out for. -/
theorem Sound.role_unique {t : Tables} (h : t.Sound) (a b : Role × Int) (ha : a ∈ t.issued)
    (hb : b ∈ t.issued) (hid : a.2 = b.2) : a = b :=
  List.inj_on_of_nodup_map h.issued_nodup ha hb hid

theorem Sound.rows_nodup {t : Tables} (h : t.Sound) : (t.rows.map (·.2)).Nodup := by
  have hn := h.issued_nodup
  rw [issued, List.map_append, List.nodup_append] at hn
  simpa [List.map_map, Function.comp_def] using hn.1

theorem Sound.events_nodup {t : Tables} (h : t.Sound) : (t.events.map (·.id)).Nodup := by
  have hn := h.issued_nodup
  rw [issued, List.map_append, List.nodup_append] at hn
  simpa [List.map_map, Function.comp_def] using hn.2.1

theorem Sound.key_unique {t : Tables} (h : t.Sound) (key other : NaturalKey) (id : Int)
    (hk : t.id? key = some id) (ho : t.id? other = some id) : key = other := by
  have hm := t.mem_rows_of_id? key id hk
  have hm' := t.mem_rows_of_id? other id ho
  have he := List.inj_on_of_nodup_map h.rows_nodup hm hm' rfl
  simpa using he

theorem Sound.id_eq_iff {t : Tables} (h : t.Sound) {key other : NaturalKey} {i j : Int}
    (hk : t.id? key = some i) (ho : t.id? other = some j) : i = j ↔ key = other := by
  constructor
  · rintro rfl
    exact h.key_unique key other i hk ho
  · rintro rfl
    rw [hk] at ho
    exact Option.some.inj ho

theorem mem_issued_of_id? (t : Tables) (key : NaturalKey) (id : Int) (h : t.id? key = some id) :
    (.entity key.kind, id) ∈ t.issued := by
  rw [issued, List.mem_append]
  exact Or.inl (List.mem_map.mpr ⟨_,t.mem_rows_of_id? key id h,rfl⟩)

theorem mem_issued_of_event (t : Tables) (row : EventRow) (h : row ∈ t.events) :
    (.event, row.id) ∈ t.issued := by
  rw [issued, List.mem_append]
  exact Or.inr (List.mem_map.mpr ⟨row,h,rfl⟩)

@[simp] theorem rename_key (key : ClusterKey) (name : Option String) (row : ClusterRow) :
    (rename key name row).key = row.key := by
  unfold rename
  split <;> rfl

@[simp] theorem rename_id (key : ClusterKey) (name : Option String) (row : ClusterRow) :
    (rename key name row).id = row.id := by
  unfold rename
  split <;> rfl

@[simp] theorem rows_update (t : Tables) (draft : Draft) : (t.update draft).rows = t.rows := by
  cases draft <;> simp [update, rows, Function.comp_def]

@[simp] theorem events_update (t : Tables) (draft : Draft) :
    (t.update draft).events = t.events := by
  cases draft <;> rfl

@[simp] theorem policies_update (t : Tables) (draft : Draft) :
    (t.update draft).policies = t.policies := by
  cases draft <;> rfl

@[simp] theorem last_id_update (t : Tables) (draft : Draft) :
    (t.update draft).lastId = t.lastId := by
  cases draft <;> rfl

@[simp] theorem events_create (t : Tables) (draft : Draft) :
    (t.create draft).events = t.events := by
  cases draft <;> rfl

@[simp] theorem last_id_create (t : Tables) (draft : Draft) :
    (t.create draft).lastId = t.lastId + 1 := by
  cases draft <;> rfl

theorem rows_create_perm (t : Tables) (draft : Draft) :
    (t.create draft).rows.Perm ((draft.key, t.lastId + 1) :: t.rows) := by
  cases draft with
  | cluster key name =>
    simp only [create, rows, Draft.key, List.map_append, List.append_assoc]
    exact List.perm_middle
  | parentPolicy key =>
    simp only [create, rows, Draft.key, List.map_append, List.append_assoc]
    rw [← List.append_assoc, ← List.append_assoc (List.map _ t.clusters)]
    exact List.perm_middle
  | policy key spec =>
    simp only [create, rows, Draft.key, List.map_append, ← List.append_assoc]
    exact List.perm_append_comm

theorem Sound.create {t : Tables} (h : t.Sound) (draft : Draft) (hnew : t.id? draft.key = none) :
    (t.create draft).Sound := by
  have hp := t.rows_create_perm draft
  constructor
  · rw [(hp.map _).nodup_iff, List.map_cons, List.nodup_cons]
    exact ⟨(t.id?_eq_none_iff _).mp hnew,h.keys⟩
  · obtain ⟨n,hn,hi⟩ := h.numbered
    have hlast : (t.create draft).lastId = (n + 1 : Nat) := by simp [hn]
    have hnext : ((t.create draft).issued.map (·.2)).Perm
        ((t.lastId + 1) :: t.issued.map (·.2)) := by
      simp only [issued, List.map_append, List.map_map, events_create]
      exact (hp.map _).append_right _
    rw [hn] at hnext
    exact ⟨n + 1,hlast,hnext.trans ((hi.cons _).trans (first_ids_succ n).symm)⟩

theorem Sound.update {t : Tables} (h : t.Sound) (draft : Draft) : (t.update draft).Sound := by
  constructor
  · rw [rows_update]
    exact h.keys
  · simpa [issued] using h.numbered

theorem Sound.get_or_create {t : Tables} (h : t.Sound) (draft : Draft) :
    (t.getOrCreate draft).2.Sound := by
  unfold Tables.getOrCreate
  split
  · exact h.update draft
  · exact h.create draft (by assumption)

theorem Sound.insert_event {t : Tables} (h : t.Sound) (record : EventRecord) :
    (t.insertEvent record).2.Sound := by
  constructor
  · exact h.keys
  · obtain ⟨n,hn,hi⟩ := h.numbered
    have hlast : (t.insertEvent record).2.lastId = (n + 1 : Nat) := by simp [Tables.insertEvent, hn]
    have hnext : ((t.insertEvent record).2.issued.map (·.2)).Perm
        ((t.lastId + 1) :: t.issued.map (·.2)) := by
      simp only [Tables.insertEvent, issued, rows, List.map_append, List.map_cons, List.map_nil,
        ← List.append_assoc]
      exact List.perm_append_comm
    rw [hn] at hnext
    exact ⟨n + 1,hlast,hnext.trans ((hi.cons _).trans (first_ids_succ n).symm)⟩

end Tables

end ComplianceIntake.Store
