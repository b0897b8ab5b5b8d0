import LockCell.Error
import LockCell.Session

/-
  LockCell.Request — what clients and servers say to each other.

  Each request has its own kind of response (`Call.Answers`); a server replies with a
  response or with a fault. The status document is asked for without a request body and
  comes without a reply around it.
-/

namespace LockCell

inductive Request where
  | initSession (client : Client)
  /-- With the locks that the client claims to hold, if it looks for a new master. -/
  | keepAlive (client : Client) (claimed : Option (Dict Mode))
  | openLock (client : Client) (path : Path)
  | deleteLock (client : Client) (path : Path)
  | acquireLock (client : Client) (path : Path) (mode : Mode)
  | releaseLock (client : Client) (path : Path)
  | join (node : Node) (addr : Addr)
  deriving DecidableEq

inductive Response where
  /-- The session was made, by the server at this address. -/
  | master (addr : Addr)
  | kept (answer : KeepAlive)
  | done
  | acquired (success : Bool)
  deriving DecidableEq, Repr

abbrev Reply := Except Fault Response

/-- The kinds of requests, each with a route of its own. -/
inductive Call where
  | initSession
  | keepAlive
  | openLock
  | deleteLock
  | acquireLock
  | releaseLock
  | join
  deriving DecidableEq, Repr

def Request.call : Request → Call
  | initSession _ => .initSession
  | keepAlive .. => .keepAlive
  | openLock .. => .openLock
  | deleteLock .. => .deleteLock
  | acquireLock .. => .acquireLock
  | releaseLock .. => .releaseLock
  | join .. => .join

/-- A response of the kind that belongs to a call. -/
def Call.Answers : Call → Response → Prop
  | .initSession, .master _ => True
  | .keepAlive, .kept _ => True
  | .acquireLock, .acquired _ => True
  | .openLock, .done | .deleteLock, .done | .releaseLock, .done | .join, .done => True
  | _, _ => False

/-- What a server says of itself. -/
structure Status where
  node : Node
  listen : Addr
  leads : Bool
  leader : Option Addr
  sessions : Nat
  locks : Nat
  deriving DecidableEq, Repr

end LockCell
