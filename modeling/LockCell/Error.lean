import LockCell.Mode
import LockCell.Names
import LockCell.Text.Quoted

/-
  LockCell.Error — why a request is refused or fails.

  `LockError` is a refusal by the lock table, `Error` everything that a call can end in,
  `Fault` what of it travels in a reply. A fault keeps the classes that a client acts on
  (redirect, refusal, end of session); every other error becomes its text (`Fault.ofError`)
  and arrives as a `remote` error (`Fault.toError`).
-/

namespace LockCell

inductive LockError where
  | notOpened (path : Path)
  | alreadyOwned (client : Client) (path : Path)
  | notOwned (client : Client) (path : Path)
  | notExclusive (client : Client) (path : Path)
  | invalidMode (mode : Mode)
  /-- The table contradicts itself, or is asked for what its own state excludes. -/
  | invariant (path : Path) (detail : String)
  deriving DecidableEq, Repr

namespace LockError

def message : LockError → String
  | notOpened p => "lock at " ++ p ++ " has not been opened"
  | alreadyOwned c p => "client " ++ c ++ " already owns the lock at " ++ p
  | notOwned c p => "client " ++ c ++ " does not own the lock at " ++ p
  | notExclusive c p => "client " ++ c ++ " does not hold the lock at " ++ p ++ " in EXCLUSIVE mode"
  | invalidMode m => "invalid lock mode " ++ m.name ++ ": only EXCLUSIVE or SHARED can be requested"
  | invariant p d => "lock table invariant violated at " ++ p ++ ": " ++ d

/-- The caller asked for something that the lock's state forbids. -/
def isPrecondition : LockError → Bool
  | invariant .. => false
  | _ => true

end LockError

inductive Corruption where
  /-- The file yields no bytes, for another reason than its end. -/
  | unreadable
  | badText
  | badTag (tag : Nat)
  | other (message : String)
  deriving DecidableEq, Repr

def Corruption.message : Corruption → String
  | unreadable => "io error: Is a directory (os error 21)"
  | badText => "string is not valid utf8"
  | badTag n =>
    "invalid value: integer `" ++ toString n ++ "`, expected variant index 0 <= i < 2"
  | other m => m

inductive Error where
  /-- This node does not lead; `leader` is where the leader is reached, if known. -/
  | notLeader (leader : Option Addr)
  | lock (reason : LockError)
  | sessionExists (client : Client)
  | sessionNotFound (client : Client)
  | sessionExpired (client : Client)
  | noServerAvailable
  /-- The peer hung up before the whole reply was read: the request may have been served. -/
  | connectionClosed (addr : Addr)
  | transport (addr : Addr) (text : String)
  | storage (text : String)
  /-- A failure at the server that it reported by its text. -/
  | remote (text : String)
  | serialization (cause : Corruption)
  | io (text : String)
  | other (text : String)
  deriving DecidableEq, Repr

namespace Error

def message : Error → String
  | notLeader l => "node is not the leader (leader: " ++ Text.quotedOption l ++ ")"
  | lock e => e.message
  | sessionExists c => "client " ++ c ++ " already has a session established with the master"
  | sessionNotFound c => "no session for client " ++ c
  | sessionExpired c => "session for client " ++ c ++ " expired"
  | noServerAvailable => "could not connect to any server"
  | connectionClosed a => "connection to " ++ a ++ " closed before the reply was read"
  | transport a t => "transport error talking to " ++ a ++ ": " ++ t
  | storage t => "storage error: " ++ t
  | remote t => "server error: " ++ t
  | serialization c => "serialization error: " ++ c.message
  | io t => "IO error: " ++ t
  | other t => "other error: " ++ t

/-- Where the caller should ask instead. -/
def redirect? : Error → Option Addr
  | notLeader l => l
  | _ => none

/-- The call may be sent again as it is. -/
def isTransient : Error → Bool
  | connectionClosed _ => true
  | _ => false

/-- The caller has no session any more. -/
def isSessionExpired : Error → Bool
  | sessionExpired _ | sessionNotFound _ => true
  | _ => false

def isPrecondition : Error → Bool
  | lock e => e.isPrecondition
  | _ => false

end Error

inductive Fault where
  | notLeader (leader : Option Addr)
  | lock (reason : LockError)
  | sessionExists (client : Client)
  | sessionNotFound (client : Client)
  | sessionExpired (client : Client)
  | internal (text : String)
  deriving DecidableEq, Repr

namespace Fault

def ofError : Error → Fault
  | .notLeader l => notLeader l
  | .lock e => lock e
  | .sessionExists c => sessionExists c
  | .sessionNotFound c => sessionNotFound c
  | .sessionExpired c => sessionExpired c
  | e => internal e.message

def toError : Fault → Error
  | notLeader l => .notLeader l
  | lock e => .lock e
  | sessionExists c => .sessionExists c
  | sessionNotFound c => .sessionNotFound c
  | sessionExpired c => .sessionExpired c
  | internal t => .remote t

theorem ofError_toError_of_ne_internal {f : Fault} (h : ∀ t, f ≠ internal t) :
    ofError f.toError = f := by
  cases f with
  | internal t => exact absurd rfl (h t)
  | _ => rfl

end Fault

end LockCell
