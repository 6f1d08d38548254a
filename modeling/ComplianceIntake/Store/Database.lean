import ComplianceIntake.Store.Call

/-!
# A database out of reach

A pool of connections to a database. Connections are opened when a call needs
one, so a pool can be made for any well-formed URL; where no connection can
be opened every call fails with the obstacle met, and after the pool was
closed every call fails for that reason instead.
-/

set_option autoImplicit false

namespace ComplianceIntake.Store

open ComplianceIntake.Network

structure Database where
  obstacle : DatabaseFault
  closed : Bool := false
  deriving DecidableEq, Repr

namespace Database

def fault (d : Database) : DatabaseFault := if d.closed then .poolClosed else d.obstacle

def close (d : Database) : Database := { d with closed := true }

instance : Backend Database where
  waits _ := false
  answer _ _ d := (.error (.database d.fault), d)

def migrate (d : Database) : Except StoreError Unit := .error (.database (.migration d.fault))

def connectLazy (obstacle : DatabaseFault) (url : String) : Except StoreError Database :=
  match checkUrl url with
  | .ok () => .ok { obstacle := obstacle }
  | .error fault => .error (.database (.configuration fault))

def connect (obstacle : DatabaseFault) (url : String) : Except StoreError Database := do
  let d ← connectLazy obstacle url
  .error (.database d.fault)

end Database

end ComplianceIntake.Store
