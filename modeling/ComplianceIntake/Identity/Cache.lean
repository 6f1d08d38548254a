import ComplianceIntake.Event.Key

/-!
# Identity cache

Natural keys with the surrogate ids the store gave them. Entries are neither
evicted nor expired, and a later entry for a key replaces the earlier one.
-/

set_option autoImplicit false

namespace ComplianceIntake.Identity

open ComplianceIntake.Event

structure Cache where
  entries : List (NaturalKey × Int) := []
  deriving DecidableEq, Repr

namespace Cache

def lookup (c : Cache) (key : NaturalKey) : Option Int :=
  (c.entries.find? (·.1 = key)).map (·.2)

def insert (c : Cache) (key : NaturalKey) (id : Int) : Cache :=
  ⟨(key, id) :: c.entries.filter (·.1 ≠ key)⟩

def size (c : Cache) (kind : Kind) : Nat := c.entries.countP (·.1.kind = kind)

theorem lookup_insert_self (c : Cache) (key : NaturalKey) (id : Int) :
    (c.insert key id).lookup key = some id := by
  simp [lookup, insert]

theorem lookup_insert_of_ne (c : Cache) {key other : NaturalKey} (id : Int) (h : other ≠ key) :
    (c.insert key id).lookup other = c.lookup other := by
  simp only [lookup, insert, List.find?_cons, List.find?_filter]
  rw [decide_eq_false (Ne.symm h)]
  have same : (fun e : NaturalKey × Int => decide (decide (e.1 ≠ key) = true ∧
      decide (e.1 = other) = true)) = fun e => decide (e.1 = other) := by
    funext e
    by_cases he : e.1 = other <;> simp [he, h]
  rw [same]

end Cache

end ComplianceIntake.Identity
