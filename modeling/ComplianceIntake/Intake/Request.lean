import ComplianceIntake.Journal

/-!
# Requests and responses

What arrives over HTTP and what goes back. Header names are matched without
regard to case, and of equal headers the first counts. A caller may name its
request; the name is reduced to letters, digits and a few marks, and a request
without a usable name is given a fresh one.
-/

set_option autoImplicit false

namespace ComplianceIntake.Intake

open ComplianceIntake.Journal

def eventsPath : String := "/api/v1/compliance-events"

structure Request where
  method : String := "POST"
  target : String := eventsPath
  headers : List (String × List UInt8) := []
  body : List UInt8 := []
  /-- Why the stream of the body broke off after `body`, if it did. -/
  broken : Option String := none
  deriving DecidableEq, Repr

def bodyLimit : Nat := 2097152

namespace Request

def path (r : Request) : String :=
  let cs := r.target.toList.takeWhile fun c => c ≠ '?' ∧ c ≠ '#'
  let atPath :=
    if cs.head? = some '/' then cs
    else ((cs.dropWhile (· ≠ '/')).drop 2).dropWhile (· ≠ '/')
  String.ofList atPath

def readBody (r : Request) : Except BodyFault (List UInt8) :=
  if bodyLimit < r.body.length then .error .tooLong
  else
    match r.broken with
    | some detail => .error (.broken detail)
    | none => .ok r.body

def header? (r : Request) (name : String) : Option (List UInt8) :=
  (r.headers.find? fun h => h.1.toLower = name).map (·.2)

end Request

def isHeaderText (o : UInt8) : Bool := (0x20 ≤ o && o < 0x7F) || o = 0x09

def isIdChar (c : Char) : Bool := c.isAlphanum || c = '-' || c = '_' || c = '.'

def longestId : Nat := 64

def idOfHeader? (value : List UInt8) : Option String :=
  let kept := ((value.map fun o => Char.ofNat o.toNat).filter isIdChar).take longestId
  if value.all isHeaderText && !kept.isEmpty then some (String.ofList kept) else none

def Request.id (r : Request) (fresh : String) : String :=
  ((r.header? "x-request-id").bind idOfHeader?).getD fresh

inductive Content where
  | empty
  | text (s : String)
  /-- The metrics text, as it is when the response is written. -/
  | exposition
  deriving DecidableEq, Repr

structure Response where
  status : Nat
  contentType : Option String := none
  allow : Option String := none
  content : Content := .empty
  deriving DecidableEq, Repr

def jsonType : String := "application/json"

def Response.ofJson (status : Nat) (t : Json.Tree) : Response :=
  { status := status, contentType := some jsonType, content := .text t.text }

/-- The body of every refusal: a message for the caller, never the store's own words. -/
def Response.ofMessage (status : Nat) (message : String) : Response :=
  .ofJson status (.object [Json.member "message" (.ofString message)])

end ComplianceIntake.Intake
