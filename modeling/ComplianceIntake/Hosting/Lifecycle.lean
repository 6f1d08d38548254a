import ComplianceIntake.Identity.Cache
import ComplianceIntake.Journal
import ComplianceIntake.Configuration.Load

/-!
# The server's life

A server runs or does not run. Starting a running server and stopping one that
does not run change nothing and succeed. Each run has an address and a store;
the call that ends the run closes its store, whatever becomes of the task that
served it. The cache belongs to the server and outlives its runs.
-/

set_option autoImplicit false

namespace ComplianceIntake.Hosting

open ComplianceIntake.Identity
open ComplianceIntake.Journal
open ComplianceIntake.Configuration
open ComplianceIntake.Network
open ComplianceIntake.Store

structure Run (σ : Type) where
  address : SocketAddress
  store : σ
  deriving DecidableEq, Repr

structure Server (σ : Type) where
  bindAddress : SocketAddress
  cache : Cache := {}
  running : Option (Run σ) := none
  deriving DecidableEq, Repr

inductive Join where
  | finished
  | failed (detail : String)
  | timedOut
  deriving DecidableEq, Repr

/-- What a call gives: its result, the server after it, the stores it closed, and its log. -/
structure Effect (σ : Type) where
  result : Except Fault Unit
  server : Server σ
  closed : List σ := []
  entries : List Entry := []

inductive Operation (σ : Type) where
  /-- Starts with a store that is still to be opened; `bound` is what binding would give, and
  `unread` says why the address then could not be read, if so. -/
  | start (opened : Except StoreError σ) (bound : Except String SocketAddress)
      (unread : Option String := none)
  | startWith (store : σ) (bound : Except String SocketAddress) (unread : Option String := none)
  | stop (join : Join)

namespace Server

variable {σ : Type}

def isRunning (s : Server σ) : Bool := s.running.isSome

def localAddress (s : Server σ) : Option SocketAddress := s.running.map (·.address)

def idle (s : Server σ) : Effect σ := { result := .ok (), server := s }

def begin (s : Server σ) (store : σ) : Except String SocketAddress → Option String → Effect σ
  | .error detail, _ =>
    { result := .error (.bindFailed s.bindAddress.text detail), server := s }
  | .ok _, some detail => { result := .error (.addressUnread detail), server := s }
  | .ok address, none =>
    { result := .ok ()
      server := { s with running := some ⟨address, store⟩ }
      entries := [.listening address.text] }

def startWith (s : Server σ) (store : σ) (bound : Except String SocketAddress)
    (unread : Option String := none) : Effect σ :=
  if s.isRunning then s.idle else s.begin store bound unread

def start (s : Server σ) (opened : Except StoreError σ) (bound : Except String SocketAddress)
    (unread : Option String := none) : Effect σ :=
  if s.isRunning then s.idle
  else
    match opened with
    | .error error => { result := .error (.storeUnavailable error), server := s }
    | .ok store => s.begin store bound unread

def joinResult : Join → Except Fault Unit
  | .finished => .ok ()
  | .failed _ => .error .serverFailed
  | .timedOut => .error .shutdownTimeout

def joinEntry (address : SocketAddress) : Join → Entry
  | .finished => .stopped address.text
  | .failed detail => .serverFailed detail
  | .timedOut => .shutdownTimedOut address.text

def stop (s : Server σ) (join : Join) : Effect σ :=
  match s.running with
  | none => s.idle
  | some run =>
    { result := joinResult join
      server := { s with running := none }
      closed := [run.store]
      entries := [joinEntry run.address join] }

def operate (s : Server σ) : Operation σ → Effect σ
  | .start opened bound unread => s.start opened bound unread
  | .startWith store bound unread => s.startWith store bound unread
  | .stop join => s.stop join

/-- The server after a list of calls, and the stores they closed in order. -/
def operateAll (s : Server σ) : List (Operation σ) → Server σ × List σ
  | [] => (s, [])
  | op :: ops =>
    let e := s.operate op
    let r := e.server.operateAll ops
    (r.1, e.closed ++ r.2)

end Server

end ComplianceIntake.Hosting
