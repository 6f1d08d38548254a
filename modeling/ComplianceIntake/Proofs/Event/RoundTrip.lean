import ComplianceIntake.Event.Validation
import ComplianceIntake.Proofs.Event.Rereading
import ComplianceIntake.Proofs.Json.Marks

/-!
# The round trip of an event

An event that was read from a text, and a receipt for it, are read as they are
from the text that is written for them, when the event's metadata last. They do
so unless a value embedded as text put something into them that no other text
could: null, containers beyond the limit, or an object that begins with the very
key that marks an embedded text once its members are sorted.
-/

set_option autoImplicit false

namespace ComplianceIntake.Event

open ComplianceIntake.Json
open ComplianceIntake.Text (octets)

namespace ComplianceEvent

variable {e : ComplianceEvent} {t : Tree}

/-- The metadata are no null and fit where an event has them. -/
def Lasts (e : ComplianceEvent) : Prop :=
  ∀ v ∈ e.details.metadata, v ≠ .null ∧ v.Fits (nestingLimit - 2)

def Integral (e : ComplianceEvent) : Prop := ∀ v ∈ e.details.metadata, v.integral = true

/-- Metadata are read from a tree inside of the event's. -/
theorem metadata_of_of_tree? (h : ofTree? t = some e) :
    ∀ v ∈ e.details.metadata, ∃ u, u ≠ .null ∧ (t.Unmarked → u.Unmarked) ∧
      Value.ofTree? (nestingLimit - 2) u = some v := by
  intro v hv
  have hmetadata : e.details.metadata = some v := hv
  obtain ⟨r,hr,he⟩ := Option.bind_eq_some_iff.mp h
  simp only [ofRecord?, Option.bind_eq_bind, Option.bind_eq_some_iff, Option.pure_def,
    Option.some.injEq] at he
  obtain ⟨_,_,_,_,_,_,d,hd,rfl⟩ := he
  rw [Record.field] at hd
  split at hd
  · cases hd
    contradiction
  · next u hget =>
    simp only [Details.ofTree?, Option.bind_eq_bind, Option.bind_eq_some_iff, Option.pure_def,
      Option.some.injEq] at hd
    obtain ⟨r',hr',_,_,_,_,_,_,w,hw,_,_,rfl⟩ := hd
    cases hmetadata
    rw [Record.optional] at hw
    split at hw
    · cases hw
    · cases hw
    · next u' hnull hget' =>
      obtain ⟨w,hread,hw⟩ := Option.map_eq_some_iff.mp hw
      cases hw
      refine ⟨u',?_,?_,hread⟩
      · rintro rfl
        exact hnull rfl
      · exact fun ht => unmarked_of_get? (unmarked_of_get? ht hr hget) hr' hget'

theorem rereadable_of_of_tree? (h : ofTree? t = some e) (hi : e.Integral) :
    e.details.Rereadable := by
  intro v hv
  obtain ⟨u,_,_,hread⟩ := metadata_of_of_tree? h v hv
  exact ⟨Value.normal_of_of_tree? hread,hi v hv⟩

theorem lasts_of_unmarked (h : ofTree? t = some e) (ht : t.Unmarked) : e.Lasts := by
  intro v hv
  obtain ⟨u,hnull,hu,hread⟩ := metadata_of_of_tree? h v hv
  obtain ⟨hfits,hv⟩ := fits_of_unmarked (hu ht) hread
  exact ⟨fun hvnull => hnull (hv hvnull),hfits⟩

theorem lasts_of_all (h : e.details.metadata.all (fun v =>
      v.integral && v.isObject && decide (v.Fits (nestingLimit - 2))) = true) :
    e.Integral ∧ e.Lasts := by
  have hfield : ∀ v ∈ e.details.metadata,
      (v.integral = true ∧ v.isObject = true) ∧ v.Fits (nestingLimit - 2) := by
    intro v hv
    rw [show e.details.metadata = some v from hv] at h
    simpa using h
  refine ⟨fun v hv => (hfield v hv).1.1,?_⟩
  intro v hv
  obtain ⟨⟨_,hobject⟩,hfits⟩ := hfield v hv
  refine ⟨?_,hfits⟩
  rintro rfl
  contradiction

theorem reread_metadata_eq_some_iff (room : Nat) (v : Option Value) :
    Details.rereadMetadata room v = some v ↔ ∀ w ∈ v, w ≠ .null ∧ w.Fits room := by
  cases v with
  | none => simp [Details.rereadMetadata]
  | some v =>
    cases v with
    | null => simp [Details.rereadMetadata]
    | _ => simp [Details.rereadMetadata]

theorem reread_eq_some_iff (e : ComplianceEvent) : e.reread = some e ↔ e.Lasts := by
  rw [Lasts, ← reread_metadata_eq_some_iff, reread, Details.reread, Option.map_map]
  cases hm : Details.rereadMetadata (nestingLimit - 2) e.details.metadata with
  | none => simp
  | some metadata =>
    rw [Option.map_some, Option.some.injEq, Option.some.injEq]
    constructor
    · intro heq
      exact congrArg (·.details.metadata) heq
    · rintro rfl
      rfl

theorem reread_eq_none (e : ComplianceEvent) (ho : ∀ v ∈ e.details.metadata, v.isObject = true)
    (h : ¬ e.Lasts) : e.reread = none := by
  cases hm : e.details.metadata with
  | none => exact absurd (fun v hv => nomatch hm.symm.trans hv) h
  | some v =>
    have hv := ho v hm
    have hfits : ¬ v.Fits (nestingLimit - 2) := by
      intro hfits
      apply h
      intro w hw
      cases hm.symm.trans hw
      refine ⟨?_,hfits⟩
      rintro rfl
      contradiction
    cases v with
    | object members => simp [reread, Details.reread, hm, Details.rereadMetadata, hfits]
    | _ => contradiction

end ComplianceEvent

/-- An event that is read and has integers alone in its metadata is read again from its own text and
from that of a receipt, and the receipt from its text, exactly if its metadata last; they do if no
key of the first text marks an embedded value. -/
theorem round_trip_iff_lasts {body : List UInt8} {e : ComplianceEvent}
    (h : ComplianceEvent.read? body = some e) (hi : e.Integral) :
    (∀ t, readTree? body = some t → t.Unmarked → e.Lasts) ∧
    (ComplianceEvent.read? (octets e.tree.text) = some e ↔ e.Lasts) ∧
    ∀ r : Receipt, r.event = e → r.IdsFit →
      (Receipt.read? (octets r.tree.text) = some r ↔ e.Lasts) ∧
      (ComplianceEvent.read? (octets r.tree.text) = some e ↔ e.Lasts) := by
  obtain ⟨t,ht,he⟩ := Option.bind_eq_some_iff.mp h
  have hre := ComplianceEvent.rereadable_of_of_tree? he hi
  refine ⟨?_,?_,?_⟩
  · intro u hu hunmarked
    cases ht.symm.trans hu
    exact ComplianceEvent.lasts_of_unmarked he hunmarked
  · rw [ComplianceEvent.read?_text hre]
    exact e.reread_eq_some_iff
  · rintro r rfl hids
    rw [Receipt.read?_text hids hre, Receipt.read?_event_text hre]
    refine ⟨?_,r.event.reread_eq_some_iff⟩
    rw [← r.event.reread_eq_some_iff]
    cases hreread : r.event.reread with
    | none => simp
    | some e =>
      rw [Option.map_some, Option.some.injEq, Option.some.injEq]
      constructor
      · intro heq
        exact congrArg (·.event) heq
      · intro heq
        rw [heq]

def countedBody : List UInt8 :=
  octets "[[\"c\"],[\"p\",\"n\"],[\"q\",\"n\",\"1\"],[null,null,null,\x7b\"b\":[1,-2]\x7d]]"

theorem round_trip_of_counted :
    ∃ e, ComplianceEvent.read? countedBody = some e ∧
      ComplianceEvent.read? (octets e.tree.text) = some e ∧
      Receipt.read? (octets (Receipt.mk 4 1 (some 2) 3 e).tree.text) =
        some ⟨4, 1, some 2, 3, e⟩ := by
  have hread : (ComplianceEvent.read? countedBody).map (fun e =>
      e.details.metadata.all fun v =>
        v.integral && v.isObject && decide (v.Fits (nestingLimit - 2))) = some true := by
    decide +kernel
  obtain ⟨e,he,hall⟩ := Option.map_eq_some_iff.mp hread
  obtain ⟨hintegral,hlasts⟩ := ComplianceEvent.lasts_of_all hall
  have hsmall : ∀ i ∈ [4, 1, 2, 3], Receipt.IsId i := by decide
  simp only [List.forall_mem_cons] at hsmall
  obtain ⟨hevent,hcluster,hparent,hpolicy,_⟩ := hsmall
  have hids : (Receipt.mk 4 1 (some 2) 3 e).IdsFit := by
    refine ⟨hevent,hcluster,?_,hpolicy⟩
    rintro i ⟨⟩
    exact hparent
  obtain ⟨_,hevent,hreceipt⟩ := round_trip_iff_lasts he hintegral
  exact ⟨e,he,hevent.mpr hlasts,(hreceipt _ rfl hids).1.mpr hlasts⟩

def markedText : String :=
  "[[\"c\"],null,[\"q\",\"n\",\"1\"],[null,null,null,\x7b\"a\":1,\"" ++ embeddedKey ++
    "\":2\x7d]]"

def markedEvent : ComplianceEvent where
  cluster := { identifier := "c" }
  policy := { name := "q", space := "n", spec := some "1" }
  details :=
    { metadata :=
        some (.object [(embeddedKey, .number (.integer 2)), ("a", .number (.integer 1))]) }

def markedMetadata : Tree := .object [member "a" (.ofInt 1), member embeddedKey (.ofInt 2)]

def markedTree : Tree :=
  .list [.list [.ofString "c"], .null, .list [.ofString "q", .ofString "n", .ofString "1"],
    .list [.null, .null, .null, markedMetadata]]

theorem written_marked_tree : markedTree.Written := by
  have hmetadata : markedMetadata.Written := by
    apply Tree.Written.object
    · simp [member]
    · simp [member, Tree.Written.integer]
  apply Tree.Written.list
  simp only [List.forall_mem_cons]
  refine ⟨.list ?_,.null,.list ?_,.list ?_,List.forall_mem_nil _⟩
  · simp [Tree.Written.string]
  · simp [Tree.Written.string]
  · simp [Tree.Written.null, hmetadata]

theorem of_tree?_marked_tree : ComplianceEvent.ofTree? markedTree = some markedEvent := by
  have hsorted : sortMembers [("a", .number (.integer 1)), (embeddedKey, .number (.integer 2))] =
      [(embeddedKey, .number (.integer 2)), ("a", .number (.integer 1))] :=
    Value.sort_members_pair (by decide +kernel)
  have hkey : "a" ≠ embeddedKey := by decide
  have hmetadata : Value.ofTree? (nestingLimit - 2) markedMetadata =
      some (.object [(embeddedKey, .number (.integer 2)), ("a", .number (.integer 1))]) := by
    simp [markedMetadata, Value.ofTree?, nestingLimit, embeddedText?, member, membersOf?,
      Tree.ofInt, Value.ofTreeWith?, hsorted, hkey,
      Number.of_numeral?_of_int (i := 1) (by decide),
      Number.of_numeral?_of_int (i := 2) (by decide)]
  rw [markedMetadata] at hmetadata
  simp [markedTree, markedEvent, markedMetadata, ComplianceEvent.ofTree?, Record.ofTree?,
    ComplianceEvent.fields, ComplianceEvent.ofRecord?, Record.field, Record.optional, Record.get?,
    List.lookup_cons, Cluster.ofTree?, Cluster.fields, Policy.ofTree?, Policy.fields,
    Details.ofTree?, Details.fields, hmetadata, Tree.ofString, Tree.string?]

theorem read?_marked_text : ComplianceEvent.read? (octets markedText) = some markedEvent := by
  have htext : markedTree.text = markedText := by decide +kernel
  rw [← htext, ComplianceEvent.read?, written_marked_tree.read_tree?, Option.bind_some,
    of_tree?_marked_tree]

theorem marked_event_integral : markedEvent.Integral := by
  rintro v ⟨⟩
  decide

theorem marked_event_reread : markedEvent.reread = none := by
  decide

theorem marked_event_validate : markedEvent.validate = .ok () := by
  have hok : markedEvent.validate.toOption = some () := by decide +kernel
  cases hv : markedEvent.validate with
  | error reason =>
    rw [hv] at hok
    contradiction
  | ok _ => rfl

/-- The event is valid, and the text that is written for it is refused. -/
theorem round_trip_fails_of_marked :
    ComplianceEvent.read? (octets markedText) = some markedEvent ∧
    markedEvent.validate = .ok () ∧ markedEvent.Integral ∧
    ComplianceEvent.read? (octets markedEvent.tree.text) = none := by
  have hre := ComplianceEvent.rereadable_of_of_tree? of_tree?_marked_tree marked_event_integral
  refine ⟨read?_marked_text,marked_event_validate,marked_event_integral,?_⟩
  rw [ComplianceEvent.read?_text hre, marked_event_reread]

end ComplianceIntake.Event
