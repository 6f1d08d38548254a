import ComplianceIntake.Event.Receipt
import ComplianceIntake.Proofs.Json.Slots

/-!
# Events that are written and read again

Every field of a record is read as it was written: what is left out on writing
has a default on reading, and this default is what was left out. Only an event's
metadata may be lost or refused, so an event that is read again is told by what
becomes of them. A receipt's event is read from the receipt's own members.
-/

set_option autoImplicit false

namespace ComplianceIntake.Event

open ComplianceIntake.Json

theorem Compliance.of_text?_text (c : Compliance) : Compliance.ofText? c.text = some c := by
  cases c <;> decide

theorem Compliance.of_tree?_tree (unit : Compliance.UnitForm) (c : Compliance) :
    Compliance.ofTree? unit c.tree = some c := by
  rw [Compliance.tree, Tree.ofString, Compliance.ofTree?, Literal.string?_of_string]
  exact c.of_text?_text

theorem field_string {r : Record} {name s : String} (h : r.get? name = some (.ofString s)) :
    r.field name "" Tree.string? = some s :=
  Record.field_of_get? h (Tree.string?_of_string s)

theorem optional_string {r : Record} {name : String} {s : Option String}
    (h : r.get? name = s.map Tree.ofString) : r.optional name Tree.string? = some s :=
  Record.optional_of_get? h (fun _ _ => nofun) fun a _ => Tree.string?_of_string a

def stringsSlot (ss : List String) : Option Tree :=
  if ss.isEmpty then none else some (.ofStrings ss)

theorem field_strings {r : Record} {name : String} {ss : List String}
    (h : r.get? name = stringsSlot ss) : r.field name [] Tree.strings? = some ss := by
  apply Record.field_of_get?_ite h
  · intro hempty
    exact (List.isEmpty_iff.mp hempty).symm
  · exact fun _ => Tree.strings?_of_strings ss

section Trees

variable {P : Tree → Prop}

theorem forall_some {t : Tree} (h : P t) : ∀ u ∈ some t, P u := by
  rintro u ⟨⟩
  exact h

theorem forall_map {α : Type} {tree : α → Tree} {v : Option α} (h : ∀ a ∈ v, P (tree a)) :
    ∀ t ∈ v.map tree, P t := by
  intro t ht
  obtain ⟨a,ha,rfl⟩ := Option.mem_map.mp ht
  exact h a ha

theorem forall_strings_slot {ss : List String} (h : P (.ofStrings ss)) :
    ∀ t ∈ stringsSlot ss, P t := by
  intro t ht
  rw [stringsSlot] at ht
  split at ht
  · contradiction
  · cases ht
    exact h

end Trees

namespace Cluster

def slots (c : Cluster) : Slots :=
  [("identifier", some (.ofString c.identifier)), ("name", c.name.map .ofString)]

theorem tree_eq (c : Cluster) : c.tree = .object c.slots.members := by
  simp [tree, slots, members_optional, Slots.members]

theorem all_slots {P : Tree → Prop} (hs : ∀ s, P (.ofString s)) (c : Cluster) : c.slots.All P :=
  Slots.all_cons (forall_some (hs _)) <| Slots.all_cons (forall_map fun _ _ => hs _) Slots.all_nil

theorem of_tree?_tree (c : Cluster) : ofTree? c.tree = some c := by
  have hnodup : c.slots.names.Nodup := (by decide : ["identifier", "name"].Nodup)
  obtain ⟨r,hr,hget⟩ := Slots.exists_record hnodup fields
  simp only [slots, List.forall_mem_cons] at hget
  obtain ⟨hidentifier,hname,_⟩ := hget
  rw [tree_eq, ofTree?, hr]
  simp only [Option.bind_eq_bind, Option.bind_some, Option.pure_def, field_string hidentifier,
    optional_string hname]

end Cluster

namespace ParentPolicy

def slots (p : ParentPolicy) : Slots :=
  [("name", some (.ofString p.name)), ("namespace", some (.ofString p.space)),
    ("categories", stringsSlot p.categories), ("controls", stringsSlot p.controls),
    ("standards", stringsSlot p.standards)]

theorem tree_eq (p : ParentPolicy) : p.tree = .object p.slots.members := by
  simp [tree, slots, members_strings, Slots.members, stringsSlot]

theorem all_slots {P : Tree → Prop} (hs : ∀ s, P (.ofString s)) (hss : ∀ ss, P (.ofStrings ss))
    (p : ParentPolicy) : p.slots.All P :=
  Slots.all_cons (forall_some (hs _)) <| Slots.all_cons (forall_some (hs _)) <|
    Slots.all_cons (forall_strings_slot (hss _)) <| Slots.all_cons (forall_strings_slot (hss _)) <|
    Slots.all_cons (forall_strings_slot (hss _)) Slots.all_nil

theorem of_tree?_tree (p : ParentPolicy) : ofTree? p.tree = some p := by
  have hnodup : p.slots.names.Nodup :=
    (by decide : ["name", "namespace", "categories", "controls", "standards"].Nodup)
  obtain ⟨r,hr,hget⟩ := Slots.exists_record hnodup fields
  simp only [slots, List.forall_mem_cons] at hget
  obtain ⟨hname,hspace,hcategories,hcontrols,hstandards,_⟩ := hget
  rw [tree_eq, ofTree?, hr]
  simp only [Option.bind_eq_bind, Option.bind_some, Option.pure_def, field_string hname,
    field_string hspace, field_strings hcategories, field_strings hcontrols,
    field_strings hstandards]

end ParentPolicy

namespace Policy

def slots (p : Policy) : Slots :=
  [("name", some (.ofString p.name)), ("namespace", some (.ofString p.space)),
    ("spec", p.spec.map .ofString), ("specHash", p.specHash.map .ofString)]

theorem tree_eq (p : Policy) : p.tree = .object p.slots.members := by
  simp [tree, slots, members_optional, Slots.members]

theorem all_slots {P : Tree → Prop} (hs : ∀ s, P (.ofString s)) (p : Policy) : p.slots.All P :=
  Slots.all_cons (forall_some (hs _)) <| Slots.all_cons (forall_some (hs _)) <|
    Slots.all_cons (forall_map fun _ _ => hs _) <|
    Slots.all_cons (forall_map fun _ _ => hs _) Slots.all_nil

theorem of_tree?_tree (p : Policy) : ofTree? p.tree = some p := by
  have hnodup : p.slots.names.Nodup :=
    (by decide : ["name", "namespace", "spec", "specHash"].Nodup)
  obtain ⟨r,hr,hget⟩ := Slots.exists_record hnodup fields
  simp only [slots, List.forall_mem_cons] at hget
  obtain ⟨hname,hspace,hspec,hhash,_⟩ := hget
  rw [tree_eq, ofTree?, hr]
  simp only [Option.bind_eq_bind, Option.bind_some, Option.pure_def, field_string hname,
    field_string hspace, optional_string hspec, optional_string hhash]

end Policy

namespace Details

def rereadMetadata (room : Nat) : Option Value → Option (Option Value)
  | none => some none
  | some .null => some none
  | some v => if v.Fits room then some (some v) else none

def reread (room : Nat) (d : Details) : Option Details :=
  (rereadMetadata room d.metadata).map fun metadata => { d with metadata := metadata }

/-- The metadata are as they are read, and have no numbers but integers. -/
def Rereadable (d : Details) : Prop := ∀ v ∈ d.metadata, v.Normal ∧ v.integral = true

def slots (d : Details) : Slots :=
  [("compliance", d.compliance.map Compliance.tree), ("message", d.message.map .ofString),
    ("timestamp", d.timestamp.map .ofString), ("metadata", d.metadata.map Value.tree),
    ("reportedBy", d.reportedBy.map .ofString)]

theorem tree_eq (d : Details) : d.tree = .object d.slots.members := by
  simp [tree, slots, members_optional, Slots.members]

variable {room : Nat} {d : Details}

theorem all_slots {P : Tree → Prop} (hs : ∀ s, P (.ofString s))
    (hv : ∀ v ∈ d.metadata, P v.tree) : d.slots.All P :=
  Slots.all_cons (forall_map fun _ _ => hs _) <| Slots.all_cons (forall_map fun _ _ => hs _) <|
    Slots.all_cons (forall_map fun _ _ => hs _) <| Slots.all_cons (forall_map hv) <|
    Slots.all_cons (forall_map fun _ _ => hs _) Slots.all_nil

theorem optional_metadata {r : Record} {v : Option Value}
    (hv : ∀ w ∈ v, w.Normal ∧ w.integral = true) (h : r.get? "metadata" = v.map Value.tree) :
    r.optional "metadata" (Value.ofTree? room) = rereadMetadata room v := by
  rw [Record.optional, h]
  cases v with
  | none => rfl
  | some v =>
    obtain ⟨hn,hi⟩ := hv v rfl
    have hread := v.of_tree?_tree hn hi room
    cases v with
    | null => rfl
    | _ =>
      simp only [Option.map_some, Value.tree, rereadMetadata] at hread ⊢
      rw [hread]
      split <;> rfl

theorem of_tree?_tree (h : d.Rereadable) (unit : Compliance.UnitForm) (room : Nat) :
    ofTree? unit room d.tree = d.reread room := by
  have hnodup : d.slots.names.Nodup :=
    (by decide : ["compliance", "message", "timestamp", "metadata", "reportedBy"].Nodup)
  obtain ⟨r,hr,hget⟩ := Slots.exists_record hnodup fields
  simp only [slots, List.forall_mem_cons] at hget
  obtain ⟨hcompliance,hmessage,htimestamp,hmetadata,hreporter,_⟩ := hget
  have hcompliance : r.optional "compliance" (Compliance.ofTree? unit) = some d.compliance :=
    Record.optional_of_get? hcompliance (fun _ _ => nofun) fun c _ => c.of_tree?_tree unit
  rw [tree_eq, ofTree?, hr, reread]
  simp only [Option.bind_eq_bind, Option.bind_some, Option.pure_def, hcompliance,
    optional_string hmessage, optional_string htimestamp, optional_metadata h hmetadata,
    optional_string hreporter]
  cases rereadMetadata room d.metadata <;> rfl

end Details

namespace ComplianceEvent

def reread (e : ComplianceEvent) : Option ComplianceEvent :=
  (e.details.reread (nestingLimit - 2)).map fun details => { e with details := details }

def slots (e : ComplianceEvent) : Slots :=
  [("cluster", some e.cluster.tree), ("parentPolicy", e.parentPolicy.map ParentPolicy.tree),
    ("policy", some e.policy.tree), ("event", some e.details.tree)]

theorem members_eq (e : ComplianceEvent) : e.members = e.slots.members := by
  simp [members, slots, members_optional, Slots.members]

variable {e : ComplianceEvent}

/-- The event is read from every record that has its fields. -/
theorem of_record?_of_slots (h : e.details.Rereadable) (unit : Compliance.UnitForm) {r : Record}
    (hget : ∀ s ∈ e.slots, r.get? s.1 = s.2) : ofRecord? unit r = e.reread := by
  simp only [slots, List.forall_mem_cons] at hget
  obtain ⟨hcluster,hparent,hpolicy,hdetails,_⟩ := hget
  have hcluster : r.field "cluster" {} Cluster.ofTree? = some e.cluster :=
    Record.field_of_get? hcluster e.cluster.of_tree?_tree
  have hparent : r.optional "parentPolicy" ParentPolicy.ofTree? = some e.parentPolicy :=
    Record.optional_of_get? hparent (fun _ _ => nofun) fun p _ => p.of_tree?_tree
  have hpolicy : r.field "policy" {} Policy.ofTree? = some e.policy :=
    Record.field_of_get? hpolicy e.policy.of_tree?_tree
  have hdetails : r.field "event" {} (Details.ofTree? unit (nestingLimit - 2)) =
      e.details.reread (nestingLimit - 2) := by
    rw [Record.field, hdetails]
    exact Details.of_tree?_tree h unit _
  rw [ofRecord?, reread]
  simp only [Option.bind_eq_bind, Option.bind_some, Option.pure_def, hcluster, hparent, hpolicy,
    hdetails]
  cases e.details.reread (nestingLimit - 2) <;> rfl

theorem of_tree?_tree (h : e.details.Rereadable) : ofTree? e.tree = e.reread := by
  have hnodup : e.slots.names.Nodup :=
    (by decide : ["cluster", "parentPolicy", "policy", "event"].Nodup)
  obtain ⟨r,hr,hget⟩ := Slots.exists_record hnodup fields
  rw [tree, members_eq, ofTree?, hr, Option.bind_some]
  exact of_record?_of_slots h _ hget

theorem all_slots {P : Tree → Prop} (hc : P e.cluster.tree)
    (hpp : ∀ p ∈ e.parentPolicy, P p.tree) (hp : P e.policy.tree) (hd : P e.details.tree) :
    e.slots.All P :=
  Slots.all_cons (forall_some hc) <| Slots.all_cons (forall_map hpp) <|
    Slots.all_cons (forall_some hp) <| Slots.all_cons (forall_some hd) Slots.all_nil

theorem written_slots (h : e.details.Rereadable) : e.slots.All Tree.Written := by
  have hstring : ∀ s, (Tree.ofString s).Written := Tree.Written.string
  have hvalue : ∀ v ∈ e.details.metadata, v.tree.Written :=
    fun v hv => v.written_tree (h v hv).2
  apply all_slots
  · rw [Cluster.tree_eq]
    exact Slots.written (e.cluster.all_slots hstring)
  · intro p _
    rw [ParentPolicy.tree_eq]
    exact Slots.written (p.all_slots hstring Tree.written_of_strings)
  · rw [Policy.tree_eq]
    exact Slots.written (e.policy.all_slots hstring)
  · rw [Details.tree_eq]
    exact Slots.written (Details.all_slots hstring hvalue)

theorem is_plain_slots (h : e.details.Rereadable) (room : Nat)
    (hfits : ∀ v ∈ e.details.metadata, v.depth ≤ room + 1) :
    e.slots.All (Tree.IsPlain (room + 2)) := by
  have hstring : ∀ {room : Nat} s, (Tree.ofString s).IsPlain room := is_plain_string
  have hvalue : ∀ v ∈ e.details.metadata, v.tree.IsPlain (room + 1) :=
    fun v hv => v.is_plain_tree (h v hv).1 (h v hv).2 (hfits v hv)
  apply all_slots
  · rw [Cluster.tree_eq]
    exact Slots.is_plain (e.cluster.all_slots hstring)
  · intro p _
    rw [ParentPolicy.tree_eq]
    exact Slots.is_plain (p.all_slots hstring (is_plain_of_strings room))
  · rw [Policy.tree_eq]
    exact Slots.is_plain (e.policy.all_slots hstring)
  · rw [Details.tree_eq]
    exact Slots.is_plain (Details.all_slots hstring hvalue)

/-- The text of an event is read as the event that it is read again as. -/
theorem read?_text (h : e.details.Rereadable) : read? (Text.octets e.tree.text) = e.reread := by
  have hwritten : e.tree.Written := by
    rw [tree, members_eq]
    exact Slots.written (written_slots h)
  rw [read?, hwritten.read_tree?, Option.bind_some, of_tree?_tree h]

theorem depth_le_of_reread (h : e.reread.isSome) :
    ∀ v ∈ e.details.metadata, v.depth ≤ nestingLimit - 2 := by
  intro v hv
  have hmetadata : e.details.metadata = some v := hv
  rw [reread, Option.isSome_map, Details.reread, Option.isSome_map, hmetadata] at h
  cases v with
  | null => exact Nat.zero_le _
  | _ =>
    simp only [Details.rereadMetadata] at h
    split at h
    · next hfits => exact hfits.depth
    · contradiction

end ComplianceEvent

namespace Receipt

def IsId (i : Int) : Prop := -(Number.twoTo 63 : Nat) ≤ i ∧ i < (Number.twoTo 63 : Nat)

instance (i : Int) : Decidable (IsId i) := inferInstanceAs (Decidable (_ ∧ _))

structure IdsFit (r : Receipt) : Prop where
  event : IsId r.eventId
  cluster : IsId r.clusterId
  parent : ∀ i ∈ r.parentPolicyId, IsId i
  policy : IsId r.policyId

theorem IsId.in_range {i : Int} (h : IsId i) : Json.Number.InRange i := by
  have hle : Number.twoTo 63 ≤ largestSignificand := by decide
  obtain ⟨hlow,hhigh⟩ := h
  exact ⟨hlow,by omega⟩

theorem id?_of_int {i : Int} (h : IsId i) : id? (.ofInt i) = some i := by
  rw [id?, Tree.integer?_of_int (IsId.in_range h), Option.filter_some]
  obtain ⟨hlow,hhigh⟩ := h
  simp [hlow, hhigh]

def slots (r : Receipt) : Slots :=
  [("eventId", some (.ofInt r.eventId)), ("clusterId", some (.ofInt r.clusterId)),
    ("parentPolicyId", r.parentPolicyId.map .ofInt), ("policyId", some (.ofInt r.policyId))] ++
  r.event.slots

theorem tree_eq (r : Receipt) : r.tree = .object r.slots.members := by
  simp [tree, slots, members_optional, Slots.members, ComplianceEvent.members_eq]

variable {r : Receipt}

theorem all_slots {P : Tree → Prop} (hevent : P (.ofInt r.eventId))
    (hcluster : P (.ofInt r.clusterId)) (hparent : ∀ i ∈ r.parentPolicyId, P (.ofInt i))
    (hpolicy : P (.ofInt r.policyId)) (he : r.event.slots.All P) : r.slots.All P :=
  Slots.all_cons (forall_some hevent) <| Slots.all_cons (forall_some hcluster) <|
    Slots.all_cons (forall_map hparent) <| Slots.all_cons (forall_some hpolicy) he

theorem nodup_slots (r : Receipt) : r.slots.names.Nodup :=
  (by decide : fields.Nodup)

theorem written_tree (h : r.event.details.Rereadable) : r.tree.Written := by
  rw [tree_eq]
  exact Slots.written
    (all_slots (.integer _) (.integer _) (fun i _ => .integer i) (.integer _)
      (ComplianceEvent.written_slots h))

theorem of_tree?_tree (hids : r.IdsFit) (h : r.event.details.Rereadable) :
    ofTree? r.tree = r.event.reread.map fun e => { r with event := e } := by
  obtain ⟨record,hr,hget⟩ := Slots.exists_record r.nodup_slots fields
  have hr : Record.ofObject? fields r.slots.members = some record := hr
  obtain ⟨hidSlots,heventSlots⟩ := List.forall_mem_append.mp hget
  simp only [List.forall_mem_cons] at hidSlots
  obtain ⟨hevent,hcluster,hparent,hpolicy,_⟩ := hidSlots
  have hevent := Record.required_of_get? hevent (id?_of_int hids.event)
  have hcluster := Record.required_of_get? hcluster (id?_of_int hids.cluster)
  have hparent : record.optional "parentPolicyId" id? = some r.parentPolicyId :=
    Record.optional_of_get? hparent (fun _ _ => nofun) fun i hi => id?_of_int (hids.parent i hi)
  have hpolicy := Record.required_of_get? hpolicy (id?_of_int hids.policy)
  have hread := ComplianceEvent.of_record?_of_slots h Compliance.nullOrEmpty heventSlots
  rw [tree_eq]
  show ofMembers? r.slots.members = _
  rw [ofMembers?]
  cases hreread : r.event.reread with
  | none =>
    simp only [Option.bind_eq_bind, hr, Option.bind_some, hevent, hcluster, hparent, hpolicy,
      hread, hreread, Option.bind_none, Option.map_none]
    cases Value.ofPlainTree? nestingLimit (.object r.slots.members) <;> rfl
  | some e =>
    have hdepth := ComplianceEvent.depth_le_of_reread (Option.isSome_iff_exists.mpr ⟨e,hreread⟩)
    have hslots := all_slots (is_plain_integer hids.event.in_range)
      (is_plain_integer hids.cluster.in_range)
      (fun i hi => is_plain_integer (hids.parent i hi).in_range)
      (is_plain_integer hids.policy.in_range) (ComplianceEvent.is_plain_slots h 124 hdepth)
    obtain ⟨v,hv⟩ := Option.isSome_iff_exists.mp (Slots.is_plain hslots)
    have hplain : Value.ofPlainTree? nestingLimit (.object r.slots.members) = some v := hv
    simp only [Option.bind_eq_bind, hplain, hr, Option.bind_some, hevent, hcluster, hparent,
      hpolicy, hread, hreread, Option.map_some, Option.pure_def]

theorem read?_text (hids : r.IdsFit) (h : r.event.details.Rereadable) :
    read? (Text.octets r.tree.text) = r.event.reread.map fun e => { r with event := e } := by
  rw [read?, (written_tree h).read_tree?, Option.bind_some, of_tree?_tree hids h]

/-- The text of a receipt is also one of an event: the ids are members that are not declared. -/
theorem read?_event_text (h : r.event.details.Rereadable) :
    ComplianceEvent.read? (Text.octets r.tree.text) = r.event.reread := by
  obtain ⟨record,hr,hget⟩ := Slots.exists_record r.nodup_slots ComplianceEvent.fields
  have hread := ComplianceEvent.of_record?_of_slots h Compliance.nullOnly
    (List.forall_mem_append.mp hget).2
  rw [ComplianceEvent.read?, (written_tree h).read_tree?, Option.bind_some, tree_eq,
    ComplianceEvent.ofTree?, hr, Option.bind_some, hread]

end Receipt

end ComplianceIntake.Event
