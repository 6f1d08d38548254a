import ComplianceIntake.Hosting.Lifecycle
import ComplianceIntake.Store.Database

/-!
# Starting up

What the program does before it serves and when it is told to stop. The
settings are loaded; unless they say otherwise the database is connected to and
migrated before the server starts, else the server starts on a pool that
connects when it is first needed. A failure is told in one line.
-/

set_option autoImplicit false

namespace ComplianceIntake.Hosting

open ComplianceIntake.Configuration
open ComplianceIntake.Network
open ComplianceIntake.Store

/-- What the surroundings decide: the files that can be read, why no connection to a database
can be opened, what binding an address gives, and why it then could not be read, if so. -/
structure Surroundings where
  files : String → Option String
  obstacle : DatabaseFault
  bind : SocketAddress → Except String SocketAddress
  unread : Option String := none

def connectAndMigrate (obstacle : DatabaseFault) (url : String) : Except StoreError Database := do
  let d ← Database.connect obstacle url
  d.migrate
  return d

def faultLine (f : Fault) : String := "STARTUP_ERROR " ++ f.display

def storeLine (e : StoreError) : String := "STARTUP_ERROR ERR_STORE_UNAVAILABLE " ++ e.message

def startServer (e : Effect Database) : Except String (Server Database) :=
  match e.result with
  | .ok () => .ok e.server
  | .error fault => .error (faultLine fault)

def startWithSettings (around : Surroundings) (s : Settings) : Except String (Server Database) :=
  let server : Server Database := { bindAddress := s.bindAddress }
  let bound := around.bind s.bindAddress
  if s.migrate then
    match connectAndMigrate around.obstacle s.databaseUrl with
    | .error error => .error (storeLine error)
    | .ok store => startServer (server.startWith store bound around.unread)
  else
    let opened := Database.connectLazy around.obstacle s.databaseUrl
    startServer (server.start opened bound around.unread)

def startUp (around : Surroundings) (env : Assignments) : Except String (Server Database) :=
  match Settings.load env around.files with
  | .error fault => .error (faultLine fault)
  | .ok s => startWithSettings around s

def shutDown (server : Server Database) (join : Join) : Except String Unit :=
  (server.stop join).result.mapError fun fault => "SHUTDOWN_ERROR " ++ fault.display

end ComplianceIntake.Hosting
