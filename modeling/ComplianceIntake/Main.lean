import ComplianceIntake.Hosting.Startup

/-!
# The program

Reads the environment and the configuration file it names, starts the server,
and stops it when standard input ends. A failure is printed to standard error
and the exit code is one. The program has no database client, so a setting
that asks for a connection before the start always fails.
-/

set_option autoImplicit false

open ComplianceIntake.Configuration
open ComplianceIntake.Hosting
open ComplianceIntake.Store

def settingKeys : List Key :=
  [.configPath, .bindAddress, .databaseUrl, .maxConnections, .migrate, .storeTimeout,
    .shutdownTimeout]

def readEnvironment : IO Assignments :=
  settingKeys.filterMapM fun key => do
    let value ← IO.getEnv key.name
    return value.map (key.name, ·)

def readText (path : String) : IO (Option String) := do
  try
    return some (← IO.FS.readFile path)
  catch _ =>
    return none

/-- What the program finds around it; of files only the configuration file is read. -/
def lookAround (env : Assignments) : IO Surroundings := do
  let text ← match given? env .configPath with
    | some path => readText path
    | none => pure none
  return {
    files := fun _ => text
    obstacle := .unreachable "no database client"
    bind := .ok }

def waitForEnd : IO Unit := do
  let input ← IO.getStdin
  let mut line ← input.getLine
  while !line.isEmpty do
    line ← input.getLine

def main : IO UInt32 := do
  let env ← readEnvironment
  match startUp (← lookAround env) env with
  | .error line =>
    IO.eprintln line
    return 1
  | .ok server =>
    waitForEnd
    match shutDown server .finished with
    | .error line =>
      IO.eprintln line
      return 1
    | .ok () => return 0
