import Mathlib.Algebra.GroupWithZero.Nat
import Mathlib.Data.List.Nodup
import ComplianceIntake.Metrics.Registry

/-!
# What the counters show

A counter shows how many notes of its kind were counted. Samples are told
apart by fingerprints, which do differ for all the label values that are in
use; over all samples of a family nothing is lost even where they do not.
-/

set_option autoImplicit false

namespace ComplianceIntake.Metrics

open ComplianceIntake.Event
open ComplianceIntake.Journal

namespace Samples

/-- What a counter shows; one that is not there yet shows nothing. -/
def count (s : Samples Nat) (labels : List String) : Nat := (s.value? labels).getD 0

def observations (s : Samples Histogram) (labels : List String) : Nat :=
  ((s.value? labels).getD {}).count

def total (s : Samples Nat) (labels : List String) : Nat :=
  ((s.filter fun e => e.1.take labels.length = labels).map (·.2)).sum

theorem count_change (s : Samples Nat) (labels other : List String) :
    (s.change labels 0 (· + 1)).count other =
      s.count other + if fingerprint other = fingerprint labels then 1 else 0 := by
  unfold count
  rw [value?_change]
  split
  case isTrue h => rw [value?, value?, h, Option.getD_some]
  case isFalse h => rfl

theorem observations_change (s : Samples Histogram) (labels other : List String) (v : Float) :
    (s.change labels {} (·.observe v)).observations other =
      s.observations other + if fingerprint other = fingerprint labels then 1 else 0 := by
  unfold observations
  rw [value?_change]
  split
  case isTrue h =>
    rw [value?, value?, h, Option.getD_some]
    rfl
  case isFalse h => rfl

theorem mem_change {α : Type} {s : Samples α} {labels : List String} {first : α} {f : α → α}
    {e : List String × α} (h : e ∈ s.change labels first f) :
    e.1 = labels ∨ ∃ e' ∈ s, e'.1 = e.1 := by
  induction s with
  | nil => exact Or.inl (congrArg Prod.fst (List.mem_singleton.mp h))
  | cons x rest ih =>
    obtain ⟨l,a⟩ := x
    simp only [change] at h
    split at h
    · rcases List.mem_cons.mp h with rfl | h
      · exact Or.inr ⟨_,List.mem_cons_self,rfl⟩
      · exact Or.inr ⟨e,List.mem_cons_of_mem _ h,rfl⟩
    · rcases List.mem_cons.mp h with rfl | h
      · exact Or.inr ⟨_,List.mem_cons_self,rfl⟩
      · rcases ih h with h | ⟨e',he',h⟩
        · exact Or.inl h
        · exact Or.inr ⟨e',List.mem_cons_of_mem _ he',h⟩

def Within {α : Type} (s : Samples α) (labels : List String) : Prop :=
  ∀ e ∈ s, e.1.take labels.length = labels

theorem Within.change {α : Type} {s : Samples α} {labels given : List String} {first : α}
    {f : α → α} (h : s.Within labels) (hg : given.take labels.length = labels) :
    (s.change given first f).Within labels := by
  intro e he
  rcases mem_change he with he | ⟨e',he',heq⟩
  · rw [he, hg]
  · rw [← heq, h e' he']

theorem Within.total {s : Samples Nat} {labels : List String} (h : s.Within labels) :
    s.total labels = (s.map (·.2)).sum := by
  rw [Samples.total, List.filter_eq_self.mpr fun e he => decide_eq_true (h e he)]

theorem sum_change (s : Samples Nat) (labels : List String) :
    ((s.change labels 0 (· + 1)).map (·.2)).sum = (s.map (·.2)).sum + 1 := by
  induction s with
  | nil => rfl
  | cons x rest ih =>
    simp only [Samples.change]
    split
    · simp only [List.map_cons, List.sum_cons]
      omega
    · simp only [List.map_cons, List.sum_cons, ih]
      omega

end Samples

namespace Registry

def lookupCount (r : Registry) (kind : Kind) (hit : Bool) : Nat :=
  r.lookups.count [kind.label, hitLabel hit]

def getOrCreateCount (r : Registry) (kind : Kind) (ok : Bool) : Nat :=
  r.getOrCreates.count [kind.label, okLabel ok]

def requestCount (r : Registry) (route method : String) (status : Nat) : Nat :=
  r.requests.count [route, method, toString status]

def requestTotal (r : Registry) (route method : String) : Nat := r.requests.total [route, method]

def durationCount (r : Registry) (route method outcome : String) : Nat :=
  r.durations.observations [route, method, outcome]

def outcomes : List (Kind × Bool) :=
  [Kind.cluster, .parentPolicy, .policy].flatMap fun kind => [(kind, true), (kind, false)]

theorem mem_outcomes (kind : Kind) (b : Bool) : (kind, b) ∈ outcomes := by
  cases kind <;> cases b <;> decide

/-- The fingerprints of all kinds with either outcome differ. -/
def TellsApart (label : Bool → String) : Prop :=
  (outcomes.map fun o => fingerprint [o.1.label, label o.2]).Nodup

theorem tells_apart_hit_label : TellsApart hitLabel := by
  unfold TellsApart
  decide +kernel

theorem tells_apart_ok_label : TellsApart okLabel := by
  unfold TellsApart
  decide +kernel

theorem TellsApart.count_change {label : Bool → String} (h : TellsApart label) (s : Samples Nat)
    (kind kind' : Kind) (b b' : Bool) :
    (s.change [kind'.label, label b'] 0 (· + 1)).count [kind.label, label b] =
      s.count [kind.label, label b] + if kind' = kind ∧ b' = b then 1 else 0 := by
  rw [s.count_change]
  by_cases hsame : kind' = kind ∧ b' = b
  · obtain ⟨rfl,rfl⟩ := hsame
    simp
  · have hne : fingerprint [kind.label, label b] ≠ fingerprint [kind'.label, label b'] := by
      intro heq
      have hpair := List.inj_on_of_nodup_map h (mem_outcomes kind b) (mem_outcomes kind' b') heq
      cases hpair
      exact hsame ⟨rfl,rfl⟩
    simp [hne, hsame]

variable (nanoseconds : Nat)

theorem lookup_count_absorb (r : Registry) (note : Note) (kind : Kind) (hit : Bool) :
    (r.absorb nanoseconds note).lookupCount kind hit =
      r.lookupCount kind hit + [note].count (.cacheLookup kind hit) := by
  cases note with
  | cacheLookup kind' hit' =>
    have h := tells_apart_hit_label.count_change r.lookups kind kind' hit hit'
    simpa [absorb, observeLookup, List.count_singleton, lookupCount] using h
  | getOrCreate kind' ok => rfl
  | request route method status => rfl
  | log entry => rfl

theorem get_or_create_count_absorb (r : Registry) (note : Note) (kind : Kind) (ok : Bool) :
    (r.absorb nanoseconds note).getOrCreateCount kind ok =
      r.getOrCreateCount kind ok + [note].count (.getOrCreate kind ok) := by
  cases note with
  | getOrCreate kind' ok' =>
    have h := tells_apart_ok_label.count_change r.getOrCreates kind kind' ok ok'
    simpa [absorb, observeGetOrCreate, List.count_singleton, getOrCreateCount] using h
  | cacheLookup kind' hit => rfl
  | request route method status => rfl
  | log entry => rfl

/-- What one note raises by its own occurrence, a list raises by its occurrences in it. -/
theorem absorb_all_counts (shown : Registry → Nat) (counted : Note)
    (h : ∀ r note, shown (absorb nanoseconds r note) = shown r + [note].count counted)
    (r : Registry) (notes : List Note) :
    shown (r.absorbAll nanoseconds notes) = shown r + notes.count counted := by
  induction notes generalizing r with
  | nil => rfl
  | cons note notes ih =>
    calc
      shown ((r.absorb nanoseconds note).absorbAll nanoseconds notes)
        = shown r + [note].count counted + notes.count counted := by rw [ih, h]
      _ = shown r + (note :: notes).count counted := by
        rw [Nat.add_assoc, ← List.count_append, List.singleton_append]

theorem lookup_count_absorb_all (r : Registry) (notes : List Note) (kind : Kind) (hit : Bool) :
    (r.absorbAll nanoseconds notes).lookupCount kind hit =
      r.lookupCount kind hit + notes.count (.cacheLookup kind hit) :=
  absorb_all_counts nanoseconds (fun r => r.lookupCount kind hit) _
    (fun r note => r.lookup_count_absorb nanoseconds note kind hit) r notes

theorem get_or_create_count_absorb_all (r : Registry) (notes : List Note) (kind : Kind)
    (ok : Bool) :
    (r.absorbAll nanoseconds notes).getOrCreateCount kind ok =
      r.getOrCreateCount kind ok + notes.count (.getOrCreate kind ok) :=
  absorb_all_counts nanoseconds (fun r => r.getOrCreateCount kind ok) _
    (fun r note => r.get_or_create_count_absorb nanoseconds note kind ok) r notes

theorem absorb_all_of_no_request (r : Registry) {notes : List Note}
    (h : ∀ route method status, .request route method status ∉ notes) :
    (r.absorbAll nanoseconds notes).requests = r.requests ∧
      (r.absorbAll nanoseconds notes).durations = r.durations := by
  induction notes generalizing r with
  | nil => exact ⟨rfl,rfl⟩
  | cons note notes ih =>
    obtain ⟨hr,hd⟩ := ih (r.absorb nanoseconds note) fun route method status hm =>
      h route method status (List.mem_cons_of_mem _ hm)
    cases note with
    | request route method status => exact absurd List.mem_cons_self (h route method status)
    | cacheLookup kind hit => exact ⟨hr,hd⟩
    | getOrCreate kind ok => exact ⟨hr,hd⟩
    | log entry => exact ⟨hr,hd⟩

end Registry

end ComplianceIntake.Metrics
