import ComplianceIntake.Proofs.Store.Growth

/-!
# The books of a ledger

Whatever is done with a ledger that starts out empty, its books are in order: one
counter has numbered all rows of all four kinds, without a gap and without using a
number twice, and events stand in the order of their ids. Rows are only ever
added; of those that are there nothing changes but the display name of a cluster.
Where the ledger is unavailable it refuses every call and stays as it is.
-/

set_option autoImplicit false

namespace ComplianceIntake.Store

open ComplianceIntake.Event

inductive Deed where
  | ask (choice : SpecChoice) (call : Call)
  | setAvailable (on : Bool)

namespace Ledger

def deed (l : Ledger) : Deed → Ledger
  | .ask choice call => (l.answer choice call).2
  | .setAvailable on => { l with available := on }

def deeds (l : Ledger) (ds : List Deed) : Ledger := ds.foldl deed l

end Ledger

namespace Tables

def size (t : Tables) : Nat :=
  t.clusters.length + t.parentPolicies.length + t.policies.length + t.events.length

def ids (t : Tables) : List Int :=
  t.clusters.map (·.id) ++ t.parentPolicies.map (·.id) ++ t.policies.map (·.id)
    ++ t.events.map (·.id)

/-- The ids are the numbers from one to the last id, of which there are as many as rows. -/
structure InOrder (t : Tables) : Prop where
  lastId : t.lastId = t.size
  ids : t.ids.Perm (firstIds t.size)
  keys : (t.rows.map (·.1)).Nodup
  events : t.events.Pairwise (·.id < ·.id)

theorem ids_eq_issued (t : Tables) : t.ids = t.issued.map (·.2) := by
  simp [ids, issued, rows, Function.comp_def]

theorem length_ids (t : Tables) : t.ids.length = t.size := by
  simp only [ids, size, List.length_append, List.length_map]

theorem length_first_ids (n : Nat) : (firstIds n).length = n := by
  rw [firstIds, List.length_map, List.length_range]

theorem Sound.in_order {t : Tables} (h : t.Sound) (he : t.events.Pairwise (·.id < ·.id)) :
    t.InOrder := by
  obtain ⟨n,hlast,hperm⟩ := h.numbered
  rw [← ids_eq_issued] at hperm
  have hsize : t.size = n := by rw [← length_ids, hperm.length_eq, length_first_ids]
  subst hsize
  exact ⟨hlast,hperm,h.keys,he⟩

/-- Rows were added, and of the old ones nothing differs but what a cluster is called. -/
structure Extends (t t' : Tables) : Prop extends t.Grows t' where
  clusters : t.clusters.map (fun r => (r.key, r.id)) <+: t'.clusters.map fun r => (r.key, r.id)
  parentPolicies : t.parentPolicies <+: t'.parentPolicies

namespace Extends

variable {t t' t'' : Tables}

theorem refl (t : Tables) : t.Extends t := ⟨.refl t,List.prefix_refl _,List.prefix_refl _⟩

theorem trans (h : t.Extends t') (h' : t'.Extends t'') : t.Extends t'' :=
  ⟨h.toGrows.trans h'.toGrows,h.clusters.trans h'.clusters,
    h.parentPolicies.trans h'.parentPolicies⟩

theorem update (t : Tables) (draft : Draft) : t.Extends (t.update draft) := by
  refine ⟨t.grows_update draft,?_,?_⟩
  · cases draft with
    | cluster key name => simp [Tables.update, Function.comp_def]
    | parentPolicy key => exact List.prefix_refl _
    | policy key spec => exact List.prefix_refl _
  · cases draft <;> exact List.prefix_refl _

theorem create (t : Tables) (draft : Draft) : t.Extends (t.create draft) := by
  refine ⟨t.grows_create draft,?_,?_⟩
  · cases draft with
    | cluster key name =>
      rw [Tables.create, List.map_append]
      exact List.prefix_append _ _
    | parentPolicy key => exact List.prefix_refl _
    | policy key spec => exact List.prefix_refl _
  · cases draft with
    | cluster key name => exact List.prefix_refl _
    | parentPolicy key => exact List.prefix_append _ _
    | policy key spec => exact List.prefix_refl _

theorem get_or_create (t : Tables) (draft : Draft) : t.Extends (t.getOrCreate draft).2 := by
  unfold Tables.getOrCreate
  split
  · exact .update t draft
  · exact .create t draft

theorem insert_event (t : Tables) (record : EventRecord) : t.Extends (t.insertEvent record).2 :=
  ⟨t.grows_insert_event record,List.prefix_refl _,List.prefix_refl _⟩

end Extends

/-- A specification is found exactly where a policy has the hash, and it is one of such a policy. -/
theorem found_specs_of (t : Tables) (choice : SpecChoice) (hash : String) :
    ((choice.pick? (t.specsOf hash)).isSome = true ↔ t.Knows hash) ∧
      ∀ spec, choice.pick? (t.specsOf hash) = some spec →
        ∃ row ∈ t.policies, row.key.specHash = hash ∧ row.spec = spec := by
  constructor
  · rw [← not_iff_not, Option.not_isSome_iff_eq_none, t.pick?_specs_of_eq_none_iff choice]
  · intro spec hspec
    exact (t.mem_specs_of_iff hash spec).mp (choice.pick?_mem _ _ hspec)

theorem Sound.ascending_insert_event {t : Tables} (h : t.Sound)
    (he : t.events.Pairwise (·.id < ·.id)) (record : EventRecord) :
    (t.insertEvent record).2.events.Pairwise (·.id < ·.id) := by
  rw [Tables.insertEvent, List.pairwise_append]
  refine ⟨he,List.pairwise_singleton _ _,?_⟩
  intro row hrow new hnew
  have hle := h.issued_le _ (t.mem_issued_of_event row hrow)
  rw [List.mem_singleton.mp hnew]
  exact Int.lt_add_one_of_le hle

end Tables

namespace Ledger

structure Kept (l : Ledger) : Prop where
  sound : l.tables.Sound
  events : l.tables.events.Pairwise (·.id < ·.id)

theorem kept_empty : ({} : Ledger).Kept := ⟨Tables.sound_empty,.nil⟩

variable {l : Ledger}

theorem Kept.serve (h : l.Kept) (choice : SpecChoice) (call : Call) :
    (l.serve choice call).2.Kept := by
  refine ⟨l.sound_serve choice call h.sound,?_⟩
  cases call with
  | getOrCreate draft =>
    show (l.tables.getOrCreate draft).2.events.Pairwise (·.id < ·.id)
    rw [Tables.events_get_or_create]
    exact h.events
  | specByHash hash => exact h.events
  | insertEvent record => exact h.sound.ascending_insert_event h.events record
  | ping => exact h.events

theorem extends_serve (l : Ledger) (choice : SpecChoice) (call : Call) :
    l.tables.Extends (l.serve choice call).2.tables := by
  cases call with
  | getOrCreate draft => exact .get_or_create l.tables draft
  | specByHash hash => exact .refl _
  | insertEvent record => exact .insert_event l.tables record
  | ping => exact .refl _

theorem Kept.deed (h : l.Kept) (d : Deed) : (l.deed d).Kept := by
  cases d with
  | ask choice call =>
    show (l.answer choice call).2.Kept
    rcases l.answer_cases choice call with ⟨-,ha⟩ | ⟨-,ha⟩ <;> rw [ha]
    · exact h
    · exact h.serve choice call
  | setAvailable on => exact ⟨h.sound,h.events⟩

theorem Kept.deeds (h : l.Kept) (ds : List Deed) : (l.deeds ds).Kept := by
  induction ds generalizing l with
  | nil => exact h
  | cons d ds ih => exact ih (h.deed d)

theorem extends_deed (l : Ledger) (d : Deed) : l.tables.Extends (l.deed d).tables := by
  cases d with
  | ask choice call =>
    show l.tables.Extends (l.answer choice call).2.tables
    rcases l.answer_cases choice call with ⟨-,ha⟩ | ⟨-,ha⟩ <;> rw [ha]
    · exact .refl _
    · exact l.extends_serve choice call
  | setAvailable on => exact .refl _

theorem extends_deeds (l : Ledger) (ds : List Deed) : l.tables.Extends (l.deeds ds).tables := by
  induction ds generalizing l with
  | nil => exact .refl _
  | cons d ds ih => exact (l.extends_deed d).trans (ih (l.deed d))

/-- Whatever was done with a ledger, its books are in order, rows are only added to them, and a
call is answered from them or, where the ledger is unavailable, refused without a trace. -/
theorem books_of_deeds (ds : List Deed) :
    let l := ({} : Ledger).deeds ds
    l.tables.InOrder ∧
      (∀ more, l.tables.Extends (l.deeds more).tables) ∧
      (l.available = true → ∀ choice call, ∃ given, (l.answer choice call).1 = .ok given ∧
        call.Told (l.answer choice call).2.tables (.ok given)) ∧
      (l.available = true → ∀ choice hash, ∃ found : Option String,
        (l.answer choice (.specByHash hash)).1 = .ok found ∧
        (found.isSome = true ↔ ∃ row ∈ l.tables.policies, row.key.specHash = hash) ∧
        ∀ spec, found = some spec →
          ∃ row ∈ l.tables.policies, row.key.specHash = hash ∧ row.spec = spec) ∧
      (l.available = false → ∀ choice call, l.answer choice call = (.error unavailable, l)) := by
  intro l
  have hk : l.Kept := kept_empty.deeds ds
  refine ⟨hk.sound.in_order hk.events,l.extends_deeds,?_,?_,?_⟩
  · intro hon choice call
    rw [l.answer_of_available choice call hon]
    exact ⟨_,rfl,l.told_serve choice call⟩
  · intro hon choice hash
    rw [l.answer_of_available choice _ hon]
    exact ⟨_,rfl,l.tables.found_specs_of choice hash⟩
  · intro hoff choice call
    exact l.answer_of_unavailable choice call hoff

def outage : List Deed :=
  [.ask .first (.getOrCreate (.cluster ⟨"c"⟩ none)), .setAvailable false,
    .ask .first (.getOrCreate (.cluster ⟨"d"⟩ none)), .setAvailable true,
    .ask .first (.getOrCreate (.policy ⟨"p", "s", "h"⟩ "rules"))]

theorem outage_books :
    let l := ({} : Ledger).deeds outage
    l.available = true ∧ l.tables.ids.Perm [1, 2] ∧
      (∃ found : Option String, (l.answer .first (.specByHash "h")).1 = .ok found ∧
        found.isSome = true) ∧
      (({} : Ledger).deeds (outage.take 2)).available = false ∧
      ({} : Ledger).deeds (outage.take 3) = ({} : Ledger).deeds (outage.take 2) := by
  intro l
  have hon : l.available = true := rfl
  have hoff : (({} : Ledger).deeds (outage.take 2)).available = false := rfl
  obtain ⟨hbooks,_,_,hspec,_⟩ := books_of_deeds outage
  obtain ⟨_,_,_,_,hrefused⟩ := books_of_deeds (outage.take 2)
  obtain ⟨found,hfound,hknown,_⟩ := hspec hon .first "h"
  have hrow : ∃ row ∈ l.tables.policies, row.key.specHash = "h" :=
    ⟨⟨⟨"p", "s", "h"⟩, 2, "rules"⟩,by decide +kernel,rfl⟩
  have hsize : l.tables.size = 2 := by decide +kernel
  have hids : l.tables.ids.Perm (Tables.firstIds l.tables.size) := hbooks.ids
  rw [hsize] at hids
  exact ⟨hon,hids,⟨found,hfound,hknown.mpr hrow⟩,hoff,
    congrArg Prod.snd (hrefused hoff .first (.getOrCreate (.cluster ⟨"d"⟩ none)))⟩

end Ledger

end ComplianceIntake.Store
