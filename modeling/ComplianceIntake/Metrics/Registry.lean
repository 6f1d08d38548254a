import ComplianceIntake.Digest.Fnv
import ComplianceIntake.Journal
import ComplianceIntake.Text.Order

/-!
# Metrics

Four families of samples: how often requests, cache lookups and calls to get
or create were seen, and a histogram of how long requests took. A sample is
known by a fingerprint of its label values and named by the values seen first,
so values with one fingerprint share a sample. The registry only grows by
observations, and an observation of one sample leaves the others as they are.
-/

set_option autoImplicit false

namespace ComplianceIntake.Metrics

open ComplianceIntake.Digest
open ComplianceIntake.Journal
open ComplianceIntake.Text

/-- What a sample is known by. The values are taken one after the other with nothing between
them, so it does not tell where one ends. -/
def fingerprint (labels : List String) : UInt64 := fnv1a (labels.flatMap octets)

abbrev Samples (α : Type) := List (List String × α)

namespace Samples

variable {α : Type}

def value? (s : Samples α) (labels : List String) : Option α :=
  (List.find? (fun e : List String × α => fingerprint e.1 = fingerprint labels) s).map (·.2)

def change (s : Samples α) (labels : List String) (first : α) (f : α → α) : Samples α :=
  match s with
  | [] => [(labels, f first)]
  | (l, a) :: rest =>
    if fingerprint l = fingerprint labels then (l, f a) :: rest
    else (l, a) :: change rest labels first f

theorem value?_change (s : Samples α) (labels other : List String) (first : α) (f : α → α) :
    (s.change labels first f).value? other =
      if fingerprint other = fingerprint labels then some (f ((s.value? labels).getD first))
      else s.value? other := by
  induction s with
  | nil =>
    by_cases h : fingerprint other = fingerprint labels
    · simp [change, value?, h]
    · simp [change, value?, h, Ne.symm h]
  | cons e rest ih =>
    obtain ⟨l, a⟩ := e
    by_cases hl : fingerprint l = fingerprint labels
    · by_cases h : fingerprint other = fingerprint labels
      · simp [change, value?, hl, h]
      · simp [change, value?, hl, h, Ne.symm h]
    · by_cases h : fingerprint l = fingerprint other
      · have ho : fingerprint other ≠ fingerprint labels := h ▸ hl
        simp [change, value?, h, ho]
      · simp only [value?] at ih
        simp [change, value?, hl, h, ih]

end Samples

def bounds : List Float := [0.005, 0.01, 0.025, 0.05, 0.1, 0.25, 0.5, 1.0, 2.5, 5.0, 10.0]

structure Histogram where
  /-- For every bound, how many observations were at most that. -/
  within : List Nat := bounds.map fun _ => 0
  sum : Float := 0
  count : Nat := 0

def Histogram.observe (h : Histogram) (v : Float) : Histogram where
  within := List.zipWith (fun bound n => if v ≤ bound then n + 1 else n) bounds h.within
  sum := h.sum + v
  count := h.count + 1

/-- Whole seconds and the nanoseconds beyond them are converted apart. -/
def seconds (nanoseconds : Nat) : Float :=
  Float.ofNat (nanoseconds / 1000000000) + Float.ofNat (nanoseconds % 1000000000) / 1e9

structure Registry where
  durations : Samples Histogram := []
  requests : Samples Nat := []
  lookups : Samples Nat := []
  getOrCreates : Samples Nat := []

namespace Registry

def succeeded (status : Nat) : Bool := 200 ≤ status && status < 400

def outcomeLabel (status : Nat) : String := if succeeded status then "success" else "error"

def hitLabel (hit : Bool) : String := if hit then "hit" else "miss"

def okLabel (ok : Bool) : String := if ok then "ok" else "error"

def observeRequest (r : Registry) (route method : String) (status nanoseconds : Nat) : Registry :=
  { r with
    requests := r.requests.change [route, method, toString status] 0 (· + 1)
    durations := r.durations.change [route, method, outcomeLabel status] {}
      (·.observe (seconds nanoseconds)) }

def observeLookup (r : Registry) (kind : String) (hit : Bool) : Registry :=
  { r with lookups := r.lookups.change [kind, hitLabel hit] 0 (· + 1) }

def observeGetOrCreate (r : Registry) (kind : String) (ok : Bool) : Registry :=
  { r with getOrCreates := r.getOrCreates.change [kind, okLabel ok] 0 (· + 1) }

/-- Counts a note; a request is taken to have lasted so many nanoseconds. -/
def absorb (nanoseconds : Nat) (r : Registry) : Note → Registry
  | .cacheLookup kind hit => r.observeLookup kind.label hit
  | .getOrCreate kind ok => r.observeGetOrCreate kind.label ok
  | .request route method status => r.observeRequest route method status nanoseconds
  | .log _ => r

def absorbAll (nanoseconds : Nat) (r : Registry) (notes : List Note) : Registry :=
  notes.foldl (absorb nanoseconds) r

theorem absorb_all_append (n : Nat) (r : Registry) (a b : List Note) :
    r.absorbAll n (a ++ b) = (r.absorbAll n a).absorbAll n b :=
  List.foldl_append

end Registry

end ComplianceIntake.Metrics
