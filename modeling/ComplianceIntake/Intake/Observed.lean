import ComplianceIntake.Intake.Fleet
import ComplianceIntake.Metrics.Registry

/-!
# A run and its metrics

The replicas report to one registry. What a posting notes is counted when it
is done, with the time that it took.
-/

set_option autoImplicit false

namespace ComplianceIntake.Intake

open ComplianceIntake.Identity
open ComplianceIntake.Metrics

structure Observed where
  run : Run := {}
  registry : Registry := {}

namespace Observed

def new (caches : Nat → Cache) : Observed := { run := { fleet := ⟨{}, caches⟩ } }

/-- A posting takes so many nanoseconds; a switch of availability is not observed. -/
def move (o : Observed) (nanoseconds : Nat) (m : Move) : Observed where
  run := o.run.move m
  registry :=
    match m with
    | .post p => o.registry.absorbAll nanoseconds (o.run.fleet.post p).notes
    | .setAvailable _ => o.registry

def moves (o : Observed) (ms : List (Nat × Move)) : Observed :=
  ms.foldl (fun o m => o.move m.1 m.2) o

end Observed

end ComplianceIntake.Intake
