/-!
# The order of texts

Texts are ordered by their UTF-8 octets, first difference first. Labels and
the members of a JSON object are kept in this order. `ascending` is the sorted
list of the distinct texts of a list.
-/

set_option autoImplicit false

namespace ComplianceIntake.Text

def octets (s : String) : List UInt8 := s.toUTF8.data.toList

def atMost (s t : String) : Bool := decide (octets s ≤ octets t)

def below (s t : String) : Bool := decide (octets s < octets t)

def dropRepeats : List String → List String
  | [] => []
  | [s] => [s]
  | s :: t :: rest => if s = t then dropRepeats (t :: rest) else s :: dropRepeats (t :: rest)

def ascending (texts : List String) : List String :=
  dropRepeats (texts.mergeSort atMost)

theorem mem_drop_repeats (s : String) (texts : List String) :
    s ∈ dropRepeats texts ↔ s ∈ texts := by
  induction texts with
  | nil => simp [dropRepeats]
  | cons a rest ih =>
    cases rest with
    | nil => simp [dropRepeats]
    | cons b rest =>
      by_cases h : a = b
      · subst h
        simp only [dropRepeats, if_true, ih]
        simp
      · simp [dropRepeats, h, ih]

theorem mem_ascending (s : String) (texts : List String) : s ∈ ascending texts ↔ s ∈ texts := by
  rw [ascending, mem_drop_repeats, List.mem_mergeSort]

end ComplianceIntake.Text
