import ComplianceIntake.Configuration.Assignments
import ComplianceIntake.Network.SocketAddress

/-!
# Loading the settings

A blank value stands for an absent one, and every value is trimmed. Settings
are judged in a fixed order and the first fault is reported. The environment
may name a configuration file; its own assignments win over those of the file,
also where they are blank.
-/

set_option autoImplicit false

namespace ComplianceIntake.Configuration

open ComplianceIntake.Text
open ComplianceIntake.Number
open ComplianceIntake.Network

structure Settings where
  bindAddress : SocketAddress
  databaseUrl : String
  maxConnections : Nat
  migrate : Bool
  storeTimeoutMs : Nat
  shutdownTimeoutMs : Nat
  deriving DecidableEq, Repr

def defaultAddress : SocketAddress := ⟨.v4 [127, 0, 0, 1], 8384⟩

/-- The trimmed value of a key, unless it is absent or blank. -/
def given? (kv : Assignments) (key : Key) : Option String := (kv.value? key.name).bind supplied?

def readNatural? (s : String) : Option Nat :=
  let ds := match s.toList with
    | '+' :: ds => ds
    | ds => ds
  if ds.isEmpty || !ds.all isDigit then none else some (ofDigits ds)

def readBoolean? (s : String) : Option Bool :=
  if s ∈ ["1", "true", "TRUE", "yes", "YES"] then some true
  else if s ∈ ["0", "false", "FALSE", "no", "NO"] then some false
  else none

def settingOr {α : Type} (kv : Assignments) (key : Key) (default : α) (fault : Key → Fault)
    (read? : String → Option α) : Except Fault α :=
  match given? kv key with
  | none => .ok default
  | some s =>
    match read? s with
    | some a => .ok a
    | none => .error (fault key)

def naturalOr (kv : Assignments) (key : Key) (default bits : Nat) : Except Fault Nat :=
  settingOr kv key default .notInteger fun s => (readNatural? s).filter (· < twoTo bits)

def atLeastOne (key : Key) (n : Nat) : Except Fault Nat :=
  if n = 0 then .error (.belowOne key) else .ok n

def required (kv : Assignments) (key : Key) : Except Fault String :=
  match given? kv key with
  | some s => .ok s
  | none => .error (.missing key)

def Settings.ofAssignments (kv : Assignments) : Except Fault Settings := do
  let bindAddress ← settingOr kv .bindAddress defaultAddress .notAddress SocketAddress.read?
  let databaseUrl ← required kv .databaseUrl
  let maxConnections ← naturalOr kv .maxConnections 8 32
  let maxConnections ← atLeastOne .maxConnections maxConnections
  let migrate ← settingOr kv .migrate true .notBoolean readBoolean?
  let storeTimeoutMs ← naturalOr kv .storeTimeout 2000 64
  let storeTimeoutMs ← atLeastOne .storeTimeout storeTimeoutMs
  let shutdownTimeoutMs ← naturalOr kv .shutdownTimeout 15000 64
  return { bindAddress, databaseUrl, maxConnections, migrate, storeTimeoutMs, shutdownTimeoutMs }

/-- What the configuration file assigns, if one is named; `files` gives a readable file's text. -/
def fileAssignments (env : Assignments) (files : String → Option String) :
    Except Fault Assignments :=
  match given? env .configPath with
  | none => .ok []
  | some path =>
    match files path with
    | none => .error (.fileUnreadable path)
    | some text => readFile text

def Settings.load (env : Assignments) (files : String → Option String) :
    Except Fault Settings := do
  let kv ← fileAssignments env files
  Settings.ofAssignments (kv ++ env)

end ComplianceIntake.Configuration
