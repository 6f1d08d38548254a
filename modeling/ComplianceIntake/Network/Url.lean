import ComplianceIntake.Network.Ip

/-!
# URLs

Whether a text is a URL that stands for itself, with no base to complete it.
Controls and spaces around it are trimmed, tabs and line ends inside it left
out. A scheme and a colon come first, and where an authority follows,
`user@host:port`, its host and its port are judged. Paths, queries and
fragments are never wrong, and neither are the names of hosts under the
schemes that the web knows.
-/

set_option autoImplicit false

namespace ComplianceIntake.Network

open ComplianceIntake.Number

inductive UrlFault where
  | relative
  | emptyHost
  | hostCharacter
  | ipv6
  | port
  deriving DecidableEq, Repr

def UrlFault.message : UrlFault → String
  | .relative => "relative URL without a base"
  | .emptyHost => "empty host"
  | .hostCharacter => "invalid domain character"
  | .ipv6 => "invalid IPv6 address"
  | .port => "invalid port number"

/-- What a scheme is to the web: the schemes of its servers need a host, that of files may
have one, and any other scheme is left to its owner. -/
inductive Scheme where
  | server
  | file
  | other
  deriving DecidableEq, Repr

namespace Scheme

def ofChars (cs : List Char) : Scheme :=
  let name := String.ofList (cs.map Char.toLower)
  if name = "file" then .file
  else if name ∈ ["http", "https", "ws", "wss", "ftp"] then .server
  else .other

def isSchemeChar (c : Char) : Bool := c.isAlphanum || c = '+' || c = '-' || c = '.'

def split? (cs : List Char) : Option (Scheme × List Char) :=
  let name := cs.takeWhile isSchemeChar
  match cs.dropWhile isSchemeChar with
  | ':' :: rest => if name.head?.any Char.isAlpha then some (ofChars name, rest) else none
  | _ => none

def isSlash (s : Scheme) (c : Char) : Bool := c = '/' || (c = '\\' && s ≠ .other)

def endsAuthority (s : Scheme) (c : Char) : Bool := s.isSlash c || c = '?' || c = '#'

end Scheme

structure Authority where
  user : Option (List Char)
  host : List Char
  port : Option (List Char)
  deriving DecidableEq, Repr

namespace Authority

def splitHost (inBrackets : Bool) : List Char → List Char × List Char
  | [] => ([], [])
  | c :: cs =>
    if c = ':' ∧ inBrackets = false then ([], c :: cs)
    else
      let found := splitHost (c = '[' || (inBrackets && c ≠ ']')) cs
      (c :: found.1, found.2)

def ofChars (cs : List Char) : Authority :=
  let beforeAt := cs.reverse.dropWhile (· ≠ '@')
  let (host, port) := splitHost false (cs.reverse.takeWhile (· ≠ '@')).reverse
  { user := beforeAt.tail?.map List.reverse, host := host, port := port.tail? }

end Authority

def isForbiddenInHost (c : Char) : Bool :=
  c ∈ ['\x00', '\t', '\n', '\r', ' ', '#', '/', ':', '<', '>', '?', '@', '[', '\\', ']', '^', '|']

def checkHost (s : Scheme) : List Char → Except UrlFault Unit
  | '[' :: cs =>
    if cs.getLast? = some ']' && isV6 cs.dropLast then .ok () else .error .ipv6
  | cs => if s = .other && cs.any isForbiddenInHost then .error .hostCharacter else .ok ()

def isPort (cs : List Char) : Bool :=
  let ds := cs.takeWhile (· ≠ '\\')
  ds.all isDigit && ofDigits ds < twoTo 16

/-- Whether the user asks for a host: a lone colon does not, and no user at all only when
something comes after the authority. -/
def Authority.needsHost (a : Authority) (continues : Bool) : Bool :=
  match a.user with
  | none => false
  | some [] => continues
  | some user => user ≠ [':']

def Authority.check (a : Authority) (s : Scheme) (continues : Bool) : Except UrlFault Unit := do
  checkHost s a.host
  if a.host.isEmpty && (s = .server || a.port.isSome || a.needsHost continues) then
    .error .emptyHost
  else if a.port.all isPort then .ok ()
  else .error .port

def checkAuthority (s : Scheme) (cs : List Char) : Except UrlFault Unit :=
  let authority := cs.takeWhile fun c => !s.endsAuthority c
  (Authority.ofChars authority).check s (authority.length < cs.length)

def Scheme.afterSlashes? (s : Scheme) : List Char → Option (List Char)
  | a :: b :: cs => if s.isSlash a && s.isSlash b then some cs else none
  | _ => none

/-- Judges what follows a scheme. A server is named behind any number of slashes, and all
other authorities behind two; that of a file is a host alone. -/
def checkAfterScheme (s : Scheme) (cs : List Char) : Except UrlFault Unit :=
  match s, s.afterSlashes? cs with
  | .server, _ => checkAuthority s (cs.dropWhile s.isSlash)
  | .file, some rest => checkHost s (rest.takeWhile fun c => !s.endsAuthority c)
  | .other, some rest => checkAuthority s rest
  | _, none => .ok ()

def isPadding (c : Char) : Bool := c.toNat ≤ ' '.toNat

def isLineEnd (c : Char) : Bool := c = '\t' || c = '\n' || c = '\r'

def significant (cs : List Char) : List Char :=
  let trimmed := ((cs.dropWhile isPadding).reverse.dropWhile isPadding).reverse
  trimmed.filter fun c => !isLineEnd c

def checkUrl (text : String) : Except UrlFault Unit :=
  match Scheme.split? (significant text.toList) with
  | none => .error .relative
  | some (s, rest) => checkAfterScheme s rest

end ComplianceIntake.Network
