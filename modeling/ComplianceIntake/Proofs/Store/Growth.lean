import ComplianceIntake.Proofs.Store.Rows

/-!
# How a ledger grows

No call takes anything away: a key keeps the id it was given, and the tables of
policies and of events only become longer. What a call was answered stays true
of every later state of the ledger, which is what requests that hold an answer
rely on while other requests go on.
-/

set_option autoImplicit false

namespace ComplianceIntake.Store

open ComplianceIntake.Event

namespace Tables

structure Grows (t t' : Tables) : Prop where
  ids : ∀ key id, t.id? key = some id → t'.id? key = some id
  policies : t.policies <+: t'.policies
  events : t.events <+: t'.events

theorem Grows.refl (t : Tables) : t.Grows t :=
  ⟨fun _ _ h => h,List.prefix_refl _,List.prefix_refl _⟩

theorem Grows.trans {t t' t'' : Tables} (h : t.Grows t') (h' : t'.Grows t'') : t.Grows t'' :=
  ⟨fun key id hi => h'.ids key id (h.ids key id hi),h.policies.trans h'.policies,
    h.events.trans h'.events⟩

@[simp] theorem id?_update (t : Tables) (draft : Draft) (key : NaturalKey) :
    (t.update draft).id? key = t.id? key := by
  rw [id?_eq_find?, id?_eq_find?, rows_update]

theorem id?_create_of_some (t : Tables) (draft : Draft) (key : NaturalKey) (id : Int)
    (h : t.id? key = some id) : (t.create draft).id? key = some id := by
  cases draft <;> cases key <;>
    simp_all [id?, create, cluster?, parentPolicy?, policy?, List.find?_append]
  all_goals
    obtain ⟨row,hrow,rfl⟩ := h
    simp [hrow]

theorem id?_create_self (t : Tables) (draft : Draft) (h : t.id? draft.key = none) :
    (t.create draft).id? draft.key = some (t.lastId + 1) := by
  cases draft <;>
    simp only [id?, Draft.key, cluster?, parentPolicy?, policy?, Option.map_eq_none_iff] at h <;>
    simp [id?, create, Draft.key, cluster?, parentPolicy?, policy?, List.find?_append, h]

theorem grows_update (t : Tables) (draft : Draft) : t.Grows (t.update draft) := by
  constructor
  · intro key id h
    rw [id?_update, h]
  · simp only [policies_update, List.prefix_refl]
  · simp only [events_update, List.prefix_refl]

theorem grows_create (t : Tables) (draft : Draft) : t.Grows (t.create draft) := by
  constructor
  · exact t.id?_create_of_some draft
  · cases draft with
    | cluster key name => exact List.prefix_refl _
    | parentPolicy key => exact List.prefix_refl _
    | policy key spec => exact List.prefix_append _ _
  · simp only [events_create, List.prefix_refl]

theorem grows_get_or_create (t : Tables) (draft : Draft) : t.Grows (t.getOrCreate draft).2 := by
  unfold getOrCreate
  split
  · exact t.grows_update draft
  · exact t.grows_create draft

theorem events_get_or_create (t : Tables) (draft : Draft) :
    (t.getOrCreate draft).2.events = t.events := by
  unfold getOrCreate
  split
  · exact t.events_update draft
  · exact t.events_create draft

theorem id?_get_or_create_self (t : Tables) (draft : Draft) :
    (t.getOrCreate draft).2.id? draft.key = some (t.getOrCreate draft).1 := by
  unfold getOrCreate
  split
  · next id h => rw [id?_update, h]
  · next h => exact t.id?_create_self draft h

theorem grows_insert_event (t : Tables) (record : EventRecord) :
    t.Grows (t.insertEvent record).2 :=
  ⟨fun _ _ h => h,List.prefix_refl _,List.prefix_append _ _⟩

theorem mem_insert_event_self (t : Tables) (record : EventRecord) :
    ⟨(t.insertEvent record).1, record⟩ ∈ (t.insertEvent record).2.events := by
  simp [insertEvent]

theorem mem_specs_of_iff (t : Tables) (hash spec : String) :
    spec ∈ t.specsOf hash ↔ ∃ row ∈ t.policies, row.key.specHash = hash ∧ row.spec = spec := by
  simp [specsOf, and_assoc]

theorem Grows.specs_of {t t' : Tables} (h : t.Grows t') (hash spec : String)
    (hs : spec ∈ t.specsOf hash) : spec ∈ t'.specsOf hash := by
  rw [mem_specs_of_iff] at *
  obtain ⟨row,hrow,heq⟩ := hs
  exact ⟨row,h.policies.subset hrow,heq⟩

def Knows (t : Tables) (hash : String) : Prop := ∃ row ∈ t.policies, row.key.specHash = hash

theorem knows_of_row {t : Tables} {key : PolicyKey} {id : Int} (h : t.id? (.policy key) = some id) :
    t.Knows key.specHash := by
  obtain ⟨row,hrow,_⟩ := Option.map_eq_some_iff.mp h
  have hkey : row.key = key := by simpa using List.find?_some hrow
  exact ⟨row,List.mem_of_find?_eq_some hrow,by rw [hkey]⟩

theorem specs_of_eq_nil_iff (t : Tables) (hash : String) :
    t.specsOf hash = [] ↔ ¬ t.Knows hash := by
  simp [specsOf, Knows]

theorem pick?_specs_of_eq_none_iff (t : Tables) (choice : SpecChoice) (hash : String) :
    choice.pick? (t.specsOf hash) = none ↔ ¬ t.Knows hash := by
  rw [← specs_of_eq_nil_iff]
  cases t.specsOf hash <;> simp [SpecChoice.pick?]

/-- An id that was handed out stays handed out for the same. -/
theorem Grows.issued {t t' : Tables} (h : t.Grows t') (ht : t.Sound) :
    ∀ x ∈ t.issued, x ∈ t'.issued := by
  intro x hx
  rw [Tables.issued, List.mem_append, List.mem_map, List.mem_map] at hx
  rcases hx with ⟨⟨key,id⟩,hrow,rfl⟩ | ⟨row,hrow,rfl⟩
  · exact t'.mem_issued_of_id? key id (h.ids key id ((ht.id?_eq_some_iff key id).mpr hrow))
  · exact t'.mem_issued_of_event row (h.events.subset hrow)

end Tables

def Call.Told (t : Tables) : (c : Call) → Except StoreError c.Answer → Prop
  | .getOrCreate draft, answer => ∀ id, answer = .ok id → t.id? draft.key = some id
  | .specByHash hash, answer => ∀ spec, answer = .ok (some spec) → spec ∈ t.specsOf hash
  | .insertEvent record, answer => ∀ id, answer = .ok id → ⟨id, record⟩ ∈ t.events
  | .ping, _ => True

theorem Call.Told.mono {t t' : Tables} {c : Call} {answer : Except StoreError c.Answer}
    (h : c.Told t answer) (hg : t.Grows t') : c.Told t' answer := by
  cases c with
  | getOrCreate draft => exact fun id ha => hg.ids _ _ (h id ha)
  | specByHash hash => exact fun spec ha => hg.specs_of _ _ (h spec ha)
  | insertEvent record => exact fun id ha => hg.events.subset (h id ha)
  | ping => trivial

namespace Ledger

/-- A call does one of two things: nothing, where the ledger is unavailable, or what it is for. -/
theorem answer_cases (choice : SpecChoice) (c : Call) (l : Ledger) :
    (l.available = false ∧ l.answer choice c = (.error unavailable, l)) ∨
    (l.available = true ∧
      l.answer choice c = (.ok (l.serve choice c).1, (l.serve choice c).2)) := by
  cases h : l.available with
  | false => exact Or.inl ⟨rfl,l.answer_of_unavailable choice c h⟩
  | true => exact Or.inr ⟨rfl,l.answer_of_available choice c h⟩

theorem grows_serve (choice : SpecChoice) (c : Call) (l : Ledger) :
    l.tables.Grows (l.serve choice c).2.tables := by
  cases c with
  | getOrCreate draft => exact l.tables.grows_get_or_create draft
  | specByHash hash => exact .refl _
  | insertEvent record => exact l.tables.grows_insert_event record
  | ping => exact .refl _

theorem sound_serve (choice : SpecChoice) (c : Call) (l : Ledger) (h : l.tables.Sound) :
    (l.serve choice c).2.tables.Sound := by
  cases c with
  | getOrCreate draft => exact h.get_or_create draft
  | specByHash hash => exact h
  | insertEvent record => exact h.insert_event record
  | ping => exact h

theorem told_serve (choice : SpecChoice) (c : Call) (l : Ledger) :
    c.Told (l.serve choice c).2.tables (.ok (l.serve choice c).1) := by
  cases c with
  | getOrCreate draft =>
    intro id h
    cases h
    exact l.tables.id?_get_or_create_self draft
  | specByHash hash =>
    intro spec h
    exact choice.pick?_mem _ _ (Except.ok.inj h)
  | insertEvent record =>
    intro id h
    cases h
    exact l.tables.mem_insert_event_self record
  | ping => trivial

theorem grows_answer (choice : SpecChoice) (c : Call) (l : Ledger) :
    l.tables.Grows (l.answer choice c).2.tables := by
  rcases l.answer_cases choice c with ⟨-,h⟩ | ⟨-,h⟩ <;> rw [h]
  · exact .refl _
  · exact l.grows_serve choice c

theorem told_error (t : Tables) (c : Call) (error : StoreError) : c.Told t (.error error) := by
  cases c with
  | getOrCreate draft => exact fun _ h => nomatch h
  | specByHash hash => exact fun _ h => nomatch h
  | insertEvent record => exact fun _ h => nomatch h
  | ping => trivial

theorem told_answer (choice : SpecChoice) (c : Call) (l : Ledger) :
    c.Told (l.answer choice c).2.tables (l.answer choice c).1 := by
  rcases l.answer_cases choice c with ⟨-,h⟩ | ⟨-,h⟩ <;> rw [h]
  · exact told_error _ c _
  · exact l.told_serve choice c

end Ledger

end ComplianceIntake.Store
