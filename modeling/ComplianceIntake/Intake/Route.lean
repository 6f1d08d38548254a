import ComplianceIntake.Intake.Ingest

/-!
# Routes

The four paths of the service. Paths and methods match exactly; a route that
answers GET answers HEAD with the same head and no body.
-/

set_option autoImplicit false

namespace ComplianceIntake.Intake

open ComplianceIntake.Store
open ComplianceIntake.Identity
open ComplianceIntake.Journal

inductive Route where
  | health
  | readiness
  | metrics
  | events
  deriving DecidableEq, Repr

def Route.path : Route → String
  | .health => "/healthz"
  | .readiness => "/readyz"
  | .metrics => "/metrics"
  | .events => eventsPath

def Route.ofPath? (path : String) : Option Route :=
  [.health, .readiness, .metrics, .events].find? (·.path = path)

def notFound : Response := { status := 404 }

def healthy : Response :=
  { status := 200, contentType := some "text/plain; charset=utf-8", content := .text "ok" }

def readiness (storeReady : Bool) : Response :=
  .ofJson (if storeReady then 200 else 503) <| .object
    [Json.member "status" (.ofString (if storeReady then "ready" else "not_ready")),
      Json.member "checks" (.object [Json.member "store" (.bool storeReady)])]

def expositionType : String := "text/plain; version=0.0.4"

def metricsPage : Response :=
  { status := 200, contentType := some expositionType, content := .exposition }

def readOnly : Response := { status := 405, allow := some "GET,HEAD" }

def postOnly : Response :=
  { Response.ofMessage 405 "Method not allowed" with allow := some "POST" }

def Response.withoutContent (r : Response) : Response := { r with content := .empty }

def answerGet : Route → Plan Note Response
  | .health => .done healthy
  | .readiness => (Plan.ask .ping).bind fun pinged => .done (readiness (isOk pinged))
  | .metrics => .done metricsPage
  | .events => .done postOnly

def answerReadOnly (route : Route) (method : String) : Plan Note Response :=
  if method = "GET" then answerGet route
  else if method = "HEAD" then (answerGet route).bind fun r => .done r.withoutContent
  else .done readOnly

def answerEvents (m : Moment) (r : Request) : Plan Note Response :=
  if r.method = "POST" then (ingest m r).bind fun v => .done (responseOf v)
  else if r.method = "HEAD" then .done postOnly.withoutContent
  else .done postOnly

def answer (m : Moment) (r : Request) : Plan Note Response :=
  match Route.ofPath? r.path with
  | none => .done notFound
  | some .events => answerEvents m r
  | some route => answerReadOnly route r.method

end ComplianceIntake.Intake
