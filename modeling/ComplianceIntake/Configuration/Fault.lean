import ComplianceIntake.Store.Call

/-!
# Faults of starting and stopping

Everything that can keep the service from starting or stopping well: each fault
has a code, which programs may test, and a message for people.
-/

set_option autoImplicit false

namespace ComplianceIntake.Configuration

open ComplianceIntake.Store

inductive Key where
  | configPath
  | bindAddress
  | databaseUrl
  | maxConnections
  | migrate
  | storeTimeout
  | shutdownTimeout
  deriving DecidableEq, Repr

def Key.name : Key → String
  | .configPath => "COMPLIANCE_CONFIG_PATH"
  | .bindAddress => "COMPLIANCE_BIND_ADDR"
  | .databaseUrl => "COMPLIANCE_DB_URL"
  | .maxConnections => "COMPLIANCE_DB_MAX_CONNECTIONS"
  | .migrate => "COMPLIANCE_DB_MIGRATE"
  | .storeTimeout => "COMPLIANCE_STORE_TIMEOUT_MS"
  | .shutdownTimeout => "COMPLIANCE_SHUTDOWN_TIMEOUT_MS"

inductive Fault where
  | fileUnreadable (path : String)
  | lineWithoutEquals (line : Nat)
  | lineWithoutKey (line : Nat)
  | missing (key : Key)
  | notAddress (key : Key)
  | notInteger (key : Key)
  | belowOne (key : Key)
  | notBoolean (key : Key)
  | storeUnavailable (error : StoreError)
  | bindFailed (address detail : String)
  | addressUnread (detail : String)
  | serverFailed
  | shutdownTimeout
  deriving DecidableEq, Repr

namespace Fault

def code : Fault → String
  | .fileUnreadable _ => "ERR_CONFIG_FILE_READ"
  | .lineWithoutEquals _ => "ERR_CONFIG_FILE_PARSE"
  | .lineWithoutKey _ => "ERR_CONFIG_FILE_PARSE"
  | .missing _ => "ERR_MISSING_CONFIG"
  | .notAddress _ => "ERR_INVALID_CONFIG"
  | .notInteger _ => "ERR_INVALID_CONFIG"
  | .belowOne _ => "ERR_INVALID_CONFIG"
  | .notBoolean _ => "ERR_INVALID_CONFIG"
  | .storeUnavailable _ => "ERR_STORE_UNAVAILABLE"
  | .bindFailed _ _ => "ERR_BIND_FAILED"
  | .addressUnread _ => "ERR_BIND_FAILED"
  | .serverFailed => "ERR_SERVER_FAILED"
  | .shutdownTimeout => "ERR_SHUTDOWN_TIMEOUT"

def message : Fault → String
  | .fileUnreadable path => "failed to read config file at " ++ path
  | .lineWithoutEquals line =>
    "invalid config line " ++ toString line ++ " (expected KEY=VALUE)"
  | .lineWithoutKey line => "invalid config line " ++ toString line ++ " (empty key)"
  | .missing key => "missing required config key " ++ key.name
  | .notAddress key => key.name ++ " must be a valid host:port socket address"
  | .notInteger key => key.name ++ " must be an integer"
  | .belowOne key => key.name ++ " must be >= 1"
  | .notBoolean key => key.name ++ " must be true or false"
  | .storeUnavailable error => "failed to initialize store: " ++ error.message
  | .bindFailed address detail => "failed to bind " ++ address ++ ": " ++ detail
  | .addressUnread detail => "failed to read bound address: " ++ detail
  | .serverFailed => "server task failed during shutdown"
  | .shutdownTimeout => "graceful shutdown timed out"

def display (f : Fault) : String := f.code ++ ": " ++ f.message

end Fault

end ComplianceIntake.Configuration
