import ComplianceIntake.Intake.Fleet
import ComplianceIntake.Hosting.Lifecycle

/-!
# Serving requests while running

A server between several ledgers: each run serves one of them, and requests
that arrive while the server runs use the server's one cache and the ledger of
the current run.
-/

set_option autoImplicit false

namespace ComplianceIntake.Hosting

open ComplianceIntake.Identity
open ComplianceIntake.Intake
open ComplianceIntake.Journal
open ComplianceIntake.Network
open ComplianceIntake.Store

/-- A server whose runs name their ledger by its number. -/
structure Serving where
  server : Server Nat
  ledgers : Nat → Ledger

inductive Command where
  | startWith (ledger : Nat) (bound : Except String SocketAddress) (unread : Option String := none)
  | stop (join : Join)
  | request (moment : Moment) (choice : SpecChoice) (r : Request)

namespace Serving

def new (address : SocketAddress) (ledgers : Nat → Ledger) : Serving :=
  ⟨{ bindAddress := address }, ledgers⟩

def setLedger (s : Serving) (i : Nat) (l : Ledger) : Serving :=
  { s with ledgers := fun j => if j = i then l else s.ledgers j }

def site (s : Serving) (run : Run Nat) : Site Ledger := ⟨s.server.cache, s.ledgers run.store⟩

/-- The response to a request, if the server runs, and what it leaves. -/
def request (s : Serving) (moment : Moment) (choice : SpecChoice) (r : Request) :
    Option Response × Serving :=
  match s.server.running with
  | none => (none, s)
  | some run =>
    let o := (answer moment r).run choice (s.site run)
    (some o.value,
      { server := { s.server with cache := o.site.cache }
        ledgers := (s.setLedger run.store o.site.store).ledgers })

def obey (s : Serving) : Command → Serving
  | .startWith ledger bound unread =>
    { s with server := (s.server.startWith ledger bound unread).server }
  | .stop join => { s with server := (s.server.stop join).server }
  | .request moment choice r => (s.request moment choice r).2

def obeyAll (s : Serving) (cs : List Command) : Serving := cs.foldl obey s

end Serving

end ComplianceIntake.Hosting
