import ComplianceIntake.Store.Database
import ComplianceIntake.Store.Ledger

/-!
# Stores of either kind

The store behind a service is the ledger in memory or a database.
-/

set_option autoImplicit false

namespace ComplianceIntake.Store

inductive Backing where
  | ledger (l : Ledger)
  | database (d : Database)

namespace Backing

def answer (choice : SpecChoice) (c : Call) : Backing → Except StoreError c.Answer × Backing
  | .ledger l => ((Backend.answer choice c l).1, .ledger (Backend.answer choice c l).2)
  | .database d => ((Backend.answer choice c d).1, .database (Backend.answer choice c d).2)

instance : Backend Backing where
  waits
    | .ledger l => Backend.waits l
    | .database d => Backend.waits d
  answer := answer

def close : Backing → Backing
  | .ledger l => .ledger l
  | .database d => .database d.close

end Backing

end ComplianceIntake.Store
