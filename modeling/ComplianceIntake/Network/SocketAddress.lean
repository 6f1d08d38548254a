import ComplianceIntake.Network.Ip

/-!
# Socket addresses

An IP address with a port, read from text and written again. An IPv6 address
stands in brackets and may name a numeric scope; the scope zero is not written.
-/

set_option autoImplicit false

namespace ComplianceIntake.Network

open ComplianceIntake.Number

inductive Host where
  | v4 (octets : List Nat)
  | v6 (groups : List Nat) (scope : Nat)
  deriving DecidableEq, Repr

structure SocketAddress where
  host : Host
  port : Nat
  deriving DecidableEq, Repr

namespace SocketAddress

/-- A scope is left alone when it is not a number of thirty-two bits. -/
def takeScope (cs : List Char) : Nat × List Char :=
  match (takeChar '%' cs).bind (takeDecimal (twoTo 32)) with
  | some found => found
  | none => (0, cs)

def takePort (cs : List Char) : Option (Nat × List Char) :=
  (takeChar ':' cs).bind (takeDecimal (twoTo 16))

def readV4? (cs : List Char) : Option SocketAddress := do
  let (octets, cs) ← takeV4 cs
  let (port, cs) ← takePort cs
  if cs.isEmpty then some ⟨.v4 octets, port⟩ else none

def readV6? (cs : List Char) : Option SocketAddress := do
  let cs ← takeChar '[' cs
  let (groups, cs) ← takeV6 cs
  let (scope, cs) := takeScope cs
  let cs ← takeChar ']' cs
  let (port, cs) ← takePort cs
  if cs.isEmpty then some ⟨.v6 groups scope, port⟩ else none

def read? (s : String) : Option SocketAddress :=
  (readV4? s.toList).orElse fun _ => readV6? s.toList

def scopeText (scope : Nat) : String := if scope = 0 then "" else "%" ++ toString scope

def hostText (a : SocketAddress) : String :=
  match a.host with
  | .v4 octets => v4Text octets
  | .v6 groups _ => v6Text groups

def text (a : SocketAddress) : String :=
  match a.host with
  | .v4 octets => v4Text octets ++ ":" ++ toString a.port
  | .v6 groups scope => "[" ++ v6Text groups ++ scopeText scope ++ "]:" ++ toString a.port

end SocketAddress

end ComplianceIntake.Network
