import Mathlib.Data.List.Infix
import ComplianceIntake.Proofs.Event.Labels
import ComplianceIntake.Proofs.Identity.Coverage
import ComplianceIntake.Proofs.Intake.Postings

/-!
# What a cluster is called

Only a request that finds no entry for its cluster in its replica's cache tells
the ledger what the cluster is called. Over a run these are the first requests
that come for a cluster to one of the replicas while the ledger is available, and
the name in the ledger is that of the last of them that supplied one, whether or
not its event was recorded.
-/

set_option autoImplicit false

namespace ComplianceIntake.Store

open ComplianceIntake.Event

namespace Tables

variable {draft : Draft} {key : ClusterKey}

theorem cluster?_update (t : Tables) (key other : ClusterKey) (name : Option String) :
    (t.update (.cluster key name)).cluster? other = (t.cluster? other).map (rename key name) := by
  rw [cluster?, cluster?, update, List.find?_map]
  simp only [Function.comp_def, rename_key]

theorem cluster?_create (t : Tables) (key other : ClusterKey) (name : Option String) :
    (t.create (.cluster key name)).cluster? other =
      (t.cluster? other).or (if key = other then some ⟨key, t.lastId + 1, name⟩ else none) := by
  rw [cluster?, cluster?, create, List.find?_append]
  simp only [List.find?_singleton, decide_eq_true_eq]

theorem key_of_cluster? {t : Tables} {row : ClusterRow} (h : t.cluster? key = some row) :
    row.key = key := by
  simpa using List.find?_some h

theorem cluster_name?_get_or_create_self (t : Tables) (key : ClusterKey) (name : Option String) :
    (t.getOrCreate (.cluster key name)).2.clusterName? key = name.or (t.clusterName? key) := by
  cases hrow : t.cluster? key with
  | none =>
    have hid : t.id? (.cluster key) = none := by simp [id?, hrow]
    simp [getOrCreate, Draft.key, hid, clusterName?, cluster?_create, hrow]
  | some row =>
    have hid : t.id? (.cluster key) = some row.id := by simp [id?, hrow]
    simp [getOrCreate, Draft.key, hid, clusterName?, cluster?_update, hrow, rename,
      key_of_cluster? hrow]

/-- Drafts of other keys do not change what a cluster is called. -/
theorem cluster_name?_get_or_create_of_ne (t : Tables) (h : .cluster key ≠ draft.key) :
    (t.getOrCreate draft).2.clusterName? key = t.clusterName? key := by
  cases draft with
  | cluster other name =>
    have hne : other ≠ key := fun heq => h (congrArg NaturalKey.cluster heq.symm)
    unfold getOrCreate
    split
    · rw [clusterName?, cluster?_update, clusterName?]
      cases hrow : t.cluster? key with
      | none => rfl
      | some row =>
        have hother : row.key ≠ other := fun heq => hne (heq.symm.trans (key_of_cluster? hrow))
        simp [rename, hother]
    · rw [clusterName?, cluster?_create, if_neg hne, Option.or_none, clusterName?]
  | parentPolicy other =>
    unfold getOrCreate
    split <;> rfl
  | policy other spec =>
    unfold getOrCreate
    split <;> rfl

end Tables

end ComplianceIntake.Store

namespace ComplianceIntake.Identity

open ComplianceIntake.Event
open ComplianceIntake.Store

variable {d : Draft} {ds : List Draft} {key : ClusterKey} {id : Int} {c c' : Cache}
  {t t' : Tables}

theorem Obtained.cluster {name : Option String} (h : Obtained (.cluster key name) c t id c' t') :
    (¬ c.Covers (.cluster key) → t'.clusterName? key = name.or (t.clusterName? key)) ∧
      (c.Covers (.cluster key) → t' = t) ∧ c'.Covers (.cluster key) := by
  cases h with
  | hit h =>
    have hcovers : c.Covers (.cluster key) := by
      rw [Cache.Covers, show c.lookup (.cluster key) = some id from h]
      rfl
    exact ⟨fun hnot => absurd hcovers hnot,fun _ => rfl,hcovers⟩
  | miss h =>
    have hnot : ¬ c.Covers (.cluster key) := by
      rw [Cache.Covers, show c.lookup (.cluster key) = none from h]
      exact nofun
    exact ⟨fun _ => t.cluster_name?_get_or_create_self key name,fun hcovers => absurd hcovers hnot,
      (c.covers_insert_iff _ _ _).mpr (Or.inr rfl)⟩

theorem Obtained.cluster_of_ne (h : Obtained d c t id c' t') (hne : .cluster key ≠ d.key) :
    t'.clusterName? key = t.clusterName? key ∧
      (c'.Covers (.cluster key) ↔ c.Covers (.cluster key)) := by
  cases h with
  | hit h => exact ⟨rfl,Iff.rfl⟩
  | miss h =>
    refine ⟨t.cluster_name?_get_or_create_of_ne hne,?_⟩
    rw [c.covers_insert_iff, or_iff_left hne]

theorem ObtainedAll.cluster_of_ne (h : ObtainedAll ds c t c' t')
    (hne : ∀ d ∈ ds, .cluster key ≠ d.key) :
    t'.clusterName? key = t.clusterName? key ∧
      (c'.Covers (.cluster key) ↔ c.Covers (.cluster key)) := by
  induction h with
  | nil c t => exact ⟨rfl,Iff.rfl⟩
  | @cons d ds _ _ _ _ _ _ _ hd _ ih =>
    obtain ⟨hname,hcovers⟩ := hd.cluster_of_ne (hne d List.mem_cons_self)
    obtain ⟨hname',hcovers'⟩ := ih fun d' h' => hne d' (List.mem_cons_of_mem d h')
    exact ⟨hname'.trans hname,hcovers'.trans hcovers⟩

end ComplianceIntake.Identity

namespace ComplianceIntake.Intake

open ComplianceIntake.Event
open ComplianceIntake.Store
open ComplianceIntake.Identity
open ComplianceIntake.Text

def Posting.Concerns (p : Posting) (k : String) : Prop :=
  ∃ e, p.request.accepted = .ok e ∧ trim e.cluster.identifier = k

def Posting.Supplies (p : Posting) (name : String) : Prop :=
  ∃ e raw, p.request.accepted = .ok e ∧ e.cluster.name = some raw ∧ trim raw = name ∧ name ≠ ""

def Posting.name? (p : Posting) : Option String :=
  p.request.accepted.toOption.bind (·.cluster.displayName)

theorem Posting.name?_eq_some_iff (p : Posting) (name : String) :
    p.name? = some name ↔ p.Supplies name := by
  unfold name? Supplies Cluster.displayName
  cases p.request.accepted with
  | error refusal => simp [Except.toOption]
  | ok e => simp [Except.toOption, Option.bind_eq_some_iff, supplied?_eq_some_iff, and_comm]

theorem Posting.name?_eq_none_iff (p : Posting) : p.name? = none ↔ ∀ name, ¬ p.Supplies name := by
  simp only [Option.eq_none_iff_forall_ne_some, ne_eq, p.name?_eq_some_iff]

/-- The posting gets as far as asking the ledger for the cluster. -/
structure Fleet.Asked (f : Fleet Ledger) (k : String) (p : Posting) : Prop where
  available : f.store.available = true
  concerns : p.Concerns k
  missed : ¬ (f.caches p.replica).Covers (.cluster ⟨k⟩)

section Posting

variable {f : Fleet Ledger} {p : Posting} {e : ComplianceEvent}

/-- A valid event that meets an available ledger obtains the row of its cluster before all else. -/
theorem post_obtains_cluster (hf : f.Kept Tables.Sound) (hon : f.store.available = true)
    (ha : p.request.accepted = .ok e) :
    ∃ ds t, f.Gains (f.post p).fleet p.replica
        (.cluster e.cluster.naturalKey e.cluster.displayName :: ds) t ∧
      (∀ key, ∀ d ∈ ds, .cluster key ≠ d.key) ∧
      ∀ key, (f.post p).fleet.store.tables.clusterName? key = t.clusterName? key := by
  obtain ⟨hash,hv⟩ := p.request.valid_of_accepted e ha
  have hparent : ∀ key, ∀ d ∈ (e.parentPolicy.map fun q => Draft.parentPolicy q.naturalKey).toList,
      NaturalKey.cluster key ≠ d.key := by
    intro key d hd
    obtain ⟨q,_,rfl⟩ := Option.map_eq_some_iff.mp (Option.mem_toList.mp hd)
    exact nofun
  rcases post_obtains hf hon ha hv with ⟨r,_,⟨spec,t,_,hgains,htables,_⟩,_⟩ | ⟨_,hgains,_⟩
  · refine ⟨_,t,hgains,?_,?_⟩
    · intro key d hd
      rcases List.mem_append.mp hd with hd | hd
      · exact hparent key d hd
      · obtain rfl := List.mem_singleton.mp hd
        exact nofun
    · intro key
      rw [htables]
      rfl
  · exact ⟨_,_,hgains,hparent,fun _ => rfl⟩

theorem post_cluster (hf : f.Kept Tables.Sound) (hon : f.store.available = true)
    (ha : p.request.accepted = .ok e) (key : ClusterKey) :
    (key = e.cluster.naturalKey → ¬ (f.caches p.replica).Covers (.cluster key) →
      (f.post p).fleet.store.tables.clusterName? key =
        e.cluster.displayName.or (f.store.tables.clusterName? key)) ∧
    (key ≠ e.cluster.naturalKey ∨ (f.caches p.replica).Covers (.cluster key) →
      (f.post p).fleet.store.tables.clusterName? key = f.store.tables.clusterName? key) ∧
    (((f.post p).fleet.caches p.replica).Covers (.cluster key) ↔
      (f.caches p.replica).Covers (.cluster key) ∨ key = e.cluster.naturalKey) := by
  obtain ⟨ds,t,hgains,hne,hname⟩ := post_obtains_cluster hf hon ha
  rw [hname]
  cases hgains.obtained with
  | cons hd hrest =>
    obtain ⟨hnameRest,hcoversRest⟩ := hrest.cluster_of_ne (hne key)
    rw [hnameRest, hcoversRest]
    by_cases hkey : key = e.cluster.naturalKey
    · subst hkey
      obtain ⟨hmiss,hhit,hafter⟩ := hd.cluster
      refine ⟨fun _ => hmiss,?_,iff_of_true hafter (Or.inr rfl)⟩
      rintro (h | h)
      · exact absurd rfl h
      · rw [hhit h]
    · have hother : NaturalKey.cluster key ≠
          (Draft.cluster e.cluster.naturalKey e.cluster.displayName).key :=
        fun h => hkey (NaturalKey.cluster.inj h)
      obtain ⟨hsame,hcovers⟩ := hd.cluster_of_ne hother
      exact ⟨fun h => absurd h hkey,fun _ => hsame,by rw [hcovers, or_iff_left hkey]⟩

/-- A posting that holds no valid event, and one during an outage, leaves the fleet as it was. -/
theorem post_of_idle (h : (∃ refusal, p.request.accepted = .error refusal) ∨
    f.store.available = false) : (f.post p).fleet = f := by
  cases ha : p.request.accepted with
  | error refusal => exact (post_of_refused ha).2
  | ok e =>
    rcases h with ⟨refusal,hrefused⟩ | hoff
    · cases ha.symm.trans hrefused
    · obtain ⟨hash,hv⟩ := p.request.valid_of_accepted e ha
      obtain ⟨_,_,_,hfleet⟩ := post_of_unavailable ha hv hoff
      exact hfleet

theorem Posting.concerns_iff (ha : p.request.accepted = .ok e) (k : String) :
    p.Concerns k ↔ ⟨k⟩ = e.cluster.naturalKey := by
  constructor
  · rintro ⟨e',ha',rfl⟩
    cases ha.symm.trans ha'
    rfl
  · intro h
    exact ⟨e,ha,(ClusterKey.mk.inj h).symm⟩

theorem idle_or_valid (f : Fleet Ledger) (p : Posting) :
    ((f.post p).fleet = f ∧ ∀ k, ¬ (f.store.available = true ∧ p.Concerns k)) ∨
      ∃ e, f.store.available = true ∧ p.request.accepted = .ok e := by
  cases hon : f.store.available with
  | false => exact Or.inl ⟨post_of_idle (Or.inr hon),fun _ h => nomatch h.1⟩
  | true =>
    cases ha : p.request.accepted with
    | error refusal =>
      refine Or.inl ⟨post_of_idle (Or.inl ⟨refusal,ha⟩),?_⟩
      rintro k ⟨_,e,ha',_⟩
      cases ha.symm.trans ha'
    | ok e => exact Or.inr ⟨e,rfl,rfl⟩

theorem available_post (hf : f.Kept Tables.Sound) (p : Posting) :
    (f.post p).fleet.store.available = f.store.available := by
  rcases idle_or_valid f p with ⟨hfleet,_⟩ | ⟨e,hon,ha⟩
  · rw [hfleet]
  · obtain ⟨_,_,hgains,_⟩ := post_obtains_cluster hf hon ha
    exact hgains.available

theorem name_post_of_asked (hf : f.Kept Tables.Sound) {k : String} (h : f.Asked k p) :
    (f.post p).fleet.store.tables.clusterName? ⟨k⟩ =
      p.name?.or (f.store.tables.clusterName? ⟨k⟩) := by
  obtain ⟨e,ha,_⟩ := h.concerns
  have hkey := (p.concerns_iff ha k).mp h.concerns
  have hname : p.name? = e.cluster.displayName := by
    rw [Posting.name?, ha]
    rfl
  rw [hname]
  exact (post_cluster hf h.available ha ⟨k⟩).1 hkey h.missed

theorem name_post_of_not_asked (hf : f.Kept Tables.Sound) {k : String} (h : ¬ f.Asked k p) :
    (f.post p).fleet.store.tables.clusterName? ⟨k⟩ = f.store.tables.clusterName? ⟨k⟩ := by
  rcases idle_or_valid f p with ⟨hfleet,_⟩ | ⟨e,hon,ha⟩
  · rw [hfleet]
  · apply (post_cluster hf hon ha ⟨k⟩).2.1
    by_cases hkey : ⟨k⟩ = e.cluster.naturalKey
    · by_contra hmiss
      rw [not_or] at hmiss
      exact h ⟨hon,(p.concerns_iff ha k).mpr hkey,hmiss.2⟩
    · exact Or.inl hkey

/-- The caches that know a cluster are those that did, and that of the replica where a valid event
of it comes while the ledger is available. -/
theorem covers_post (hf : f.Kept Tables.Sound) (p : Posting) (k : String) (i : Nat) :
    ((f.post p).fleet.caches i).Covers (.cluster ⟨k⟩) ↔ (f.caches i).Covers (.cluster ⟨k⟩) ∨
      (f.store.available = true ∧ p.Concerns k) ∧ p.replica = i := by
  rcases idle_or_valid f p with ⟨hfleet,hnot⟩ | ⟨e,hon,ha⟩
  · simp [hfleet, hnot]
  · rw [p.concerns_iff ha]
    by_cases hi : p.replica = i
    · subst hi
      simp [(post_cluster hf hon ha ⟨k⟩).2.2, hon]
    · obtain ⟨_,_,hgains,_⟩ := post_obtains_cluster hf hon ha
      simp [hgains.others i (Ne.symm hi), hi]

end Posting

def Move.leavesAvailable (on : Bool) : Move → Bool
  | .post _ => on
  | .setAvailable on' => on'

def availableAfter (ms : List Move) : Bool := ms.foldl Move.leavesAvailable true

def Posted (ms before : List Move) (p : Posting) : Prop := before ++ [.post p] <+: ms

@[mk_iff] structure Arrives (k : String) (before : List Move) (p : Posting) : Prop where
  available : availableAfter before = true
  concerns : p.Concerns k

/-- The first that arrives for the cluster at its replica. -/
structure Reaches (k : String) (before : List Move) (p : Posting) : Prop where
  arrives : Arrives k before p
  first : ∀ earlier q, Posted before earlier q → Arrives k earlier q → q.replica ≠ p.replica

/-- Of those that reach the ledger for the cluster and supply a name, the last supplies this. -/
def LastSupplied (k : String) (ms : List Move) (name : String) : Prop :=
  ∃ before p, Posted ms before p ∧ Reaches k before p ∧ p.Supplies name ∧
    ∀ later q, Posted ms later q → before.length < later.length → Reaches k later q →
      ∀ other, ¬ q.Supplies other

section History

variable {ms before : List Move} {m : Move} {p : Posting} {k name : String}

theorem posted_append_iff :
    Posted (ms ++ [m]) before p ↔ before = ms ∧ m = .post p ∨ Posted ms before p := by
  rw [Posted, List.prefix_concat_iff, Posted]
  simp [eq_comm]

theorem exists_posted_append_iff {P : List Move → Posting → Prop} :
    (∃ before p, Posted (ms ++ [m]) before p ∧ P before p) ↔
      (∃ p, m = .post p ∧ P ms p) ∨ ∃ before p, Posted ms before p ∧ P before p := by
  simp only [posted_append_iff, or_and_right, exists_or]
  constructor
  · rintro (⟨_,p,⟨rfl,hm⟩,hp⟩ | hold)
    · exact Or.inl ⟨p,hm,hp⟩
    · exact Or.inr hold
  · rintro (⟨p,hm,hp⟩ | hold)
    · exact Or.inl ⟨ms,p,⟨rfl,hm⟩,hp⟩
    · exact Or.inr hold

theorem forall_posted_append_iff {P : List Move → Posting → Prop} :
    (∀ before p, Posted (ms ++ [m]) before p → P before p) ↔
      (∀ p, m = .post p → P ms p) ∧ ∀ before p, Posted ms before p → P before p := by
  simp only [posted_append_iff]
  constructor
  · intro h
    exact ⟨fun p hm => h ms p (Or.inl ⟨rfl,hm⟩),fun before p hp => h before p (Or.inr hp)⟩
  · rintro ⟨hnew,hold⟩ before p (⟨rfl,hm⟩ | hp)
    · exact hnew p hm
    · exact hold before p hp

theorem Posted.length_lt (h : Posted ms before p) : before.length < ms.length := by
  have hle := h.length_le
  rw [List.length_append, List.length_singleton] at hle
  exact hle

theorem not_posted_nil : ¬ Posted [] before p := fun h => nomatch h.length_lt

theorem Posting.Supplies.unique {other : String} (h : p.Supplies name) (h' : p.Supplies other) :
    name = other :=
  Option.some.inj (((p.name?_eq_some_iff _).mpr h).symm.trans ((p.name?_eq_some_iff _).mpr h'))

theorem available_after_append (ms : List Move) (m : Move) :
    availableAfter (ms ++ [m]) = m.leavesAvailable (availableAfter ms) := by
  rw [availableAfter, List.foldl_append]
  rfl

theorem last_supplied_of_supplies (hr : Reaches k ms p) (hn : p.Supplies name) (other : String) :
    LastSupplied k (ms ++ [.post p]) other ↔ other = name := by
  constructor
  · rintro ⟨before,q,hposted,_,hq,hlast⟩
    rcases posted_append_iff.mp hposted with ⟨rfl,hp⟩ | hposted
    · cases hp
      exact hq.unique hn
    · exact absurd hn
        (hlast ms p (posted_append_iff.mpr (Or.inl ⟨rfl,rfl⟩)) hposted.length_lt hr name)
  · rintro rfl
    refine ⟨ms,p,posted_append_iff.mpr (Or.inl ⟨rfl,rfl⟩),hr,hn,?_⟩
    intro later q hposted hlater
    have hlt := hposted.length_lt
    rw [List.length_append, List.length_singleton] at hlt
    omega

theorem last_supplied_of_silent
    (h : ∀ p, m = .post p → Reaches k ms p → ∀ name, ¬ p.Supplies name) (name : String) :
    LastSupplied k (ms ++ [m]) name ↔ LastSupplied k ms name := by
  constructor
  · rintro ⟨before,q,hposted,hreaches,hq,hlast⟩
    rcases posted_append_iff.mp hposted with ⟨rfl,hm⟩ | hposted
    · exact absurd hq (h q hm hreaches name)
    · exact ⟨before,q,hposted,hreaches,hq,
        fun later q' hposted' => hlast later q' (posted_append_iff.mpr (Or.inr hposted'))⟩
  · rintro ⟨before,q,hposted,hreaches,hq,hlast⟩
    refine ⟨before,q,posted_append_iff.mpr (Or.inr hposted),hreaches,hq,?_⟩
    intro later q' hposted' hlater hreaches'
    rcases posted_append_iff.mp hposted' with ⟨rfl,hm⟩ | hposted'
    · exact h q' hm hreaches'
    · exact hlast later q' hposted' hlater hreaches'

end History

namespace Run

theorem moves_concat (r : Run) (ms : List Move) (m : Move) :
    r.moves (ms ++ [m]) = (r.moves ms).move m := r.moves_append ms [m]

theorem available_moves (ms : List Move) :
    (({} : Run).moves ms).fleet.store.available = availableAfter ms := by
  induction ms using List.reverseRecOn with
  | nil => rfl
  | append_singleton ms m ih =>
    rw [moves_concat, available_after_append, ← ih]
    cases m with
    | post p => exact available_post (Run.kept ms).fleet p
    | setAvailable on => rfl

theorem covers_moves (ms : List Move) (k : String) (i : Nat) :
    ((({} : Run).moves ms).fleet.caches i).Covers (.cluster ⟨k⟩) ↔
      ∃ earlier q, Posted ms earlier q ∧ Arrives k earlier q ∧ q.replica = i := by
  induction ms using List.reverseRecOn with
  | nil =>
    constructor
    · exact nofun
    · rintro ⟨_,_,hposted,_⟩
      exact absurd hposted not_posted_nil
  | append_singleton ms m ih =>
    rw [moves_concat, exists_posted_append_iff, ← ih, or_comm]
    cases m with
    | setAvailable on => simp [Run.move, Fleet.setAvailable]
    | post p =>
      show ((Fleet.post _ p).fleet.caches i).Covers (.cluster ⟨k⟩) ↔ _
      rw [covers_post (Run.kept ms).fleet, available_moves]
      simp [arrives_iff]

/-- Those that ask the ledger for the cluster are those that reach it. -/
theorem asked_iff_reaches (ms : List Move) (k : String) (p : Posting) :
    (({} : Run).moves ms).fleet.Asked k p ↔ Reaches k ms p := by
  constructor
  · rintro ⟨hon,hconcerns,hmissed⟩
    rw [available_moves] at hon
    rw [covers_moves] at hmissed
    exact ⟨⟨hon,hconcerns⟩,fun earlier q hposted harrives hsame =>
      hmissed ⟨earlier,q,hposted,harrives,hsame⟩⟩
  · rintro ⟨⟨hon,hconcerns⟩,hfirst⟩
    refine ⟨(available_moves ms).trans hon,hconcerns,?_⟩
    rw [covers_moves]
    rintro ⟨earlier,q,hposted,harrives,hsame⟩
    exact hfirst earlier q hposted harrives hsame

theorem name_of_reaches {ms : List Move} {k : String} {p : Posting} (h : Reaches k ms p) :
    (({} : Run).moves (ms ++ [.post p])).tables.clusterName? ⟨k⟩ =
      p.name?.or ((({} : Run).moves ms).tables.clusterName? ⟨k⟩) := by
  rw [moves_concat]
  exact name_post_of_asked (Run.kept ms).fleet ((asked_iff_reaches ms k p).mpr h)

theorem name_of_not_reaches {ms : List Move} {k : String} {m : Move}
    (h : ∀ p, m = .post p → ¬ Reaches k ms p) :
    (({} : Run).moves (ms ++ [m])).tables.clusterName? ⟨k⟩ =
      (({} : Run).moves ms).tables.clusterName? ⟨k⟩ := by
  rw [moves_concat]
  cases m with
  | setAvailable on => rfl
  | post p =>
    apply name_post_of_not_asked (Run.kept ms).fleet
    rw [asked_iff_reaches]
    exact h p rfl

theorem name_of_silent {ms : List Move} {k : String} {m : Move}
    (h : ∀ p, m = .post p → Reaches k ms p → ∀ name, ¬ p.Supplies name) :
    (({} : Run).moves (ms ++ [m])).tables.clusterName? ⟨k⟩ =
      (({} : Run).moves ms).tables.clusterName? ⟨k⟩ := by
  by_cases hm : ∃ p, m = .post p ∧ Reaches k ms p
  · obtain ⟨p,rfl,hr⟩ := hm
    rw [name_of_reaches hr, p.name?_eq_none_iff.mpr (h p rfl hr), Option.none_or]
  · exact name_of_not_reaches fun p hp hr => hm ⟨p,hp,hr⟩

/-- The name in the ledger is the last one that was supplied by a posting that reached it. -/
theorem cluster_name?_eq_some_iff (ms : List Move) (k name : String) :
    (({} : Run).moves ms).tables.clusterName? ⟨k⟩ = some name ↔ LastSupplied k ms name := by
  induction ms using List.reverseRecOn generalizing name with
  | nil =>
    constructor
    · exact nofun
    · rintro ⟨_,_,hposted,_⟩
      exact absurd hposted not_posted_nil
  | append_singleton ms m ih =>
    by_cases hm : ∃ p new, m = .post p ∧ Reaches k ms p ∧ p.Supplies new
    · obtain ⟨p,new,rfl,hr,hn⟩ := hm
      rw [name_of_reaches hr, (p.name?_eq_some_iff new).mpr hn, last_supplied_of_supplies hr hn,
        Option.some_or, Option.some.injEq, eq_comm]
    · have hsilent : ∀ p, m = .post p → Reaches k ms p → ∀ name, ¬ p.Supplies name :=
        fun p hp hr new hn => hm ⟨p,new,hp,hr,hn⟩
      rw [name_of_silent hsilent, last_supplied_of_silent hsilent, ih]

theorem cluster_name?_eq_none_iff (ms : List Move) (k : String) :
    (({} : Run).moves ms).tables.clusterName? ⟨k⟩ = none ↔
      ∀ before p, Posted ms before p → Reaches k before p → ∀ name, ¬ p.Supplies name := by
  induction ms using List.reverseRecOn with
  | nil => exact iff_of_true rfl fun _ _ hposted => absurd hposted not_posted_nil
  | append_singleton ms m ih =>
    rw [forall_posted_append_iff, ← ih]
    by_cases hsilent : ∀ p, m = .post p → Reaches k ms p → ∀ name, ¬ p.Supplies name
    · rw [name_of_silent hsilent, and_iff_right hsilent]
    · refine iff_of_false ?_ fun h => hsilent h.1
      push Not at hsilent
      obtain ⟨p,rfl,hr,name,hn⟩ := hsilent
      rw [name_of_reaches hr, (p.name?_eq_some_iff name).mpr hn]
      exact nofun

end Run

theorem post_eq_unknown_spec_iff {f : Fleet Ledger} (hf : f.Kept Tables.Sound)
    (hon : f.store.available = true) {p : Posting} {e : ComplianceEvent} {hash : String}
    (ha : p.request.accepted = .ok e) (hv : e.Valid hash) :
    (f.post p).value = .error (.unresolved (.unknownSpec hash)) ↔
      e.policy.specText = none ∧ ¬ f.store.tables.Knows hash := by
  rcases post_obtains hf hon ha hv with ⟨r,hval,_,_,hknown⟩ | ⟨hval,_,hnone,hunknown⟩
  · rw [hval]
    exact iff_of_false nofun fun h => h.2 (hknown h.1)
  · exact iff_of_true hval ⟨hnone,hunknown⟩

/-- What a cluster is called after a run, and what the next posting does to it. -/
theorem cluster_name_of_run (ms : List Move) (k : String) :
    let run := ({} : Run).moves ms
    let nextName := fun p => (run.move (.post p)).tables.clusterName? ⟨k⟩
    (∀ name, run.tables.clusterName? ⟨k⟩ = some name ↔ LastSupplied k ms name) ∧
    (run.tables.clusterName? ⟨k⟩ = none ↔
      ∀ before p, Posted ms before p → Reaches k before p → ∀ name, ¬ p.Supplies name) ∧
    (∀ p, (∀ name, ¬ p.Supplies name) ∨
        (∃ own, p.Concerns own ∧ (run.fleet.caches p.replica).Covers (.cluster ⟨own⟩)) ∨
        (∃ refusal, p.request.accepted = .error refusal) ∨ run.fleet.store.available = false →
      nextName p = run.tables.clusterName? ⟨k⟩) ∧
    ∀ p name, Reaches k ms p → p.Supplies name → nextName p = some name ∧
      ∀ e hash, p.request.accepted = .ok e → e.Valid hash →
        ((run.fleet.post p).value = .error (.unresolved (.unknownSpec hash)) ↔
          e.policy.specText = none ∧ ¬ run.tables.Knows hash) := by
  intro run nextName
  have hnext : ∀ p, nextName p = (({} : Run).moves (ms ++ [.post p])).tables.clusterName? ⟨k⟩ :=
    fun p => by rw [Run.moves_concat]
  refine ⟨Run.cluster_name?_eq_some_iff ms k,Run.cluster_name?_eq_none_iff ms k,?_,?_⟩
  · intro p hp
    rw [hnext]
    by_cases hr : Reaches k ms p
    · have hasked := (Run.asked_iff_reaches ms k p).mpr hr
      rcases hp with hsilent | ⟨own,hown,hcovers⟩ | ⟨refusal,hrefused⟩ | hoff
      · exact Run.name_of_silent fun q hq _ => Move.post.inj hq ▸ hsilent
      · obtain ⟨e,ha,hk⟩ := hown
        obtain ⟨e',ha',hk'⟩ := hr.arrives.concerns
        cases ha.symm.trans ha'
        cases hk.symm.trans hk'
        exact absurd hcovers hasked.missed
      · obtain ⟨e,ha,_⟩ := hr.arrives.concerns
        cases ha.symm.trans hrefused
      · cases hasked.available.symm.trans hoff
    · exact Run.name_of_not_reaches fun q hq => Move.post.inj hq ▸ hr
  · intro p name hr hn
    have hasked := (Run.asked_iff_reaches ms k p).mpr hr
    refine ⟨?_,fun e hash => post_eq_unknown_spec_iff (Run.kept ms).fleet hasked.available⟩
    rw [hnext, Run.name_of_reaches hr, (p.name?_eq_some_iff name).mpr hn, Option.some_or]

def firstNamed : Posting where
  replica := 0
  body := octets "[[\"c\",\" A \"],null,[\"q\",\"n\",\"2\"]]"
  moment := ⟨"2024-02-01T10:00:00Z", "01"⟩

def thenRenamed : Posting where
  replica := 1
  body := octets
    "[[\" c\",\"B\"],null,[\"q\",\"n\",null,\"356a192b7913b04c54574d18c28d46e6395428ab\"]]"
  moment := ⟨"2024-02-01T10:00:01Z", "02"⟩

theorem cluster_name_of_then_renamed :
    let run := ({} : Run).moves [.post firstNamed]
    Reaches "c" [.post firstNamed] thenRenamed ∧ thenRenamed.Supplies "B" ∧
      statusOf (run.fleet.post thenRenamed).value = 400 ∧
      run.tables.clusterName? ⟨"c"⟩ = some "A" ∧
      (run.move (.post thenRenamed)).tables.clusterName? ⟨"c"⟩ = some "B" := by
  intro run
  have hname : thenRenamed.name? = some "B" := by decide +kernel
  have hsupplies : thenRenamed.Supplies "B" := (thenRenamed.name?_eq_some_iff "B").mp hname
  have hconcerns : thenRenamed.Concerns "c" := by
    obtain ⟨e,raw,ha,_⟩ := hsupplies
    have hk : thenRenamed.request.accepted.toOption.map (fun e => trim e.cluster.identifier) =
        some "c" := by decide +kernel
    rw [ha] at hk
    exact ⟨e,ha,Option.some.inj hk⟩
  have hasked : run.fleet.Asked "c" thenRenamed := by
    refine ⟨?_,hconcerns,?_⟩
    · rw [Run.available_moves]
      rfl
    · unfold Cache.Covers
      decide +kernel
  have hreaches := (Run.asked_iff_reaches [.post firstNamed] "c" thenRenamed).mp hasked
  have hrun := cluster_name_of_run [.post firstNamed] "c"
  exact ⟨hreaches,hsupplies,by decide +kernel,by decide +kernel,
    (hrun.2.2.2 thenRenamed "B" hreaches hsupplies).1⟩

end ComplianceIntake.Intake
