import ComplianceIntake.Number.Numeral

/-!
# IP addresses

IPv4 and IPv6 addresses, read from the front of a text and written again. The
octets of an IPv4 address have no leading zeros. An IPv6 address may end in an
IPv4 address and may leave out one run of zero groups; it is written with the
longest run of at least two zero groups left out, the first of equally long ones.
-/

set_option autoImplicit false

namespace ComplianceIntake.Network

open ComplianceIntake.Number

def takeDecimal (bound : Nat) (cs : List Char) : Option (Nat × List Char) :=
  let ds := cs.takeWhile isDigit
  if ds.isEmpty ∨ bound ≤ ofDigits ds then none else some (ofDigits ds, cs.dropWhile isDigit)

def takeOctet (cs : List Char) : Option (Nat × List Char) :=
  let ds := cs.takeWhile isDigit
  if 3 < ds.length ∨ (ds.head? = some '0' ∧ 1 < ds.length) then none else takeDecimal 256 cs

def takeChar (c : Char) : List Char → Option (List Char)
  | d :: cs => if d = c then some cs else none
  | [] => none

def takeV4 (cs : List Char) : Option (List Nat × List Char) := do
  let (a, cs) ← takeOctet cs
  let cs ← takeChar '.' cs
  let (b, cs) ← takeOctet cs
  let cs ← takeChar '.' cs
  let (c, cs) ← takeOctet cs
  let cs ← takeChar '.' cs
  let (d, cs) ← takeOctet cs
  return ([a, b, c, d], cs)

def takeGroup (cs : List Char) : Option (Nat × List Char) :=
  let ds := cs.takeWhile fun c => (hexValue? c).isSome
  if ds.isEmpty ∨ 4 < ds.length then none
  else
    some ((ds.filterMap hexValue?).foldl (fun n d => 16 * n + d) 0,
      cs.dropWhile fun c => (hexValue? c).isSome)

def afterColon (isFirst : Bool) (cs : List Char) : Option (List Char) :=
  if isFirst then some cs else takeChar ':' cs

def groupsOfV4 : List Nat → List Nat
  | [a, b, c, d] => [256 * a + b, 256 * c + d]
  | _ => []

structure Groups where
  groups : List Nat
  endsInV4 : Bool
  rest : List Char

def takeGroups (isFirst : Bool) : Nat → List Char → Groups
  | 0, cs => ⟨[], false, cs⟩
  | n + 1, cs =>
    let v4 := if 0 < n then (afterColon isFirst cs).bind takeV4 else none
    match v4 with
    | some (octets, rest) => ⟨groupsOfV4 octets, true, rest⟩
    | none =>
      match (afterColon isFirst cs).bind takeGroup with
      | some (g, rest) =>
        let more := takeGroups false n rest
        { more with groups := g :: more.groups }
      | none => ⟨[], false, cs⟩

def takeV6 (cs : List Char) : Option (List Nat × List Char) :=
  let front := takeGroups true 8 cs
  if front.groups.length = 8 then some (front.groups, front.rest)
  else if front.endsInV4 then none
  else do
    let cs ← takeChar ':' front.rest
    let cs ← takeChar ':' cs
    let back := takeGroups true (7 - front.groups.length) cs
    let zeros := List.replicate (8 - front.groups.length - back.groups.length) 0
    return (front.groups ++ zeros ++ back.groups, back.rest)

def isV6 (cs : List Char) : Bool := (takeV6 cs).any fun found => found.2.isEmpty

def v4Text (octets : List Nat) : String := ".".intercalate (octets.map toString)

def groupText (g : Nat) : String := String.ofList (Nat.toDigits 16 g)

def groupsText (groups : List Nat) : String := ":".intercalate (groups.map groupText)

def longestZeros : List Nat → Nat × Nat
  | [] => (0, 0)
  | g :: gs =>
    let here := ((g :: gs).takeWhile (· = 0)).length
    let later := longestZeros gs
    if later.2 ≤ here then (0, here) else (later.1 + 1, later.2)

def v6Text (groups : List Nat) : String :=
  match groups with
  | [0, 0, 0, 0, 0, 0xFFFF, x, y] =>
    "::ffff:" ++ v4Text [x / 256, x % 256, y / 256, y % 256]
  | _ =>
    let run := longestZeros groups
    if 2 ≤ run.2 then
      groupsText (groups.take run.1) ++ "::" ++ groupsText (groups.drop (run.1 + run.2))
    else groupsText groups

end ComplianceIntake.Network
