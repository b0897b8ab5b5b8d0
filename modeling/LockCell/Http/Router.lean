import LockCell.Http.MediaType
import LockCell.Wire.Messages

/-
  LockCell.Http.Router — which request an HTTP request carries, or the status with which
  it is turned away.

  The route is looked at first, then the method, the content type, and the body last.
  A query after the route counts for nothing, nor does text after the body's JSON value.
-/

namespace LockCell

inductive Route where
  | call (c : Call)
  | status
  deriving DecidableEq, Repr

namespace Call

def all : List Call :=
  [.initSession, .keepAlive, .openLock, .deleteLock, .acquireLock, .releaseLock, .join]

def route : Call → String
  | .initSession => "/rpc/init_session"
  | .keepAlive => "/rpc/keep_alive"
  | .openLock => "/rpc/open_lock"
  | .deleteLock => "/rpc/delete_lock"
  | .acquireLock => "/rpc/try_acquire_lock"
  | .releaseLock => "/rpc/release_lock"
  | .join => "/rpc/join"

end Call

namespace Route

def all : List Route := .status :: Call.all.map .call

def text : Route → String
  | .call c => c.route
  | .status => "/status"

/-- The route of a target, its query left out. -/
def ofTarget? (target : String) : Option Route :=
  let path := String.ofList (target.toList.takeWhile (· != '?'))
  all.find? (·.text == path)

theorem find?_text (r : Route) : all.find? (·.text == r.text) = some r := by
  cases r with
  | status => decide
  | call c => cases c <;> decide

end Route

namespace Http

structure Message where
  method : String
  target : String
  contentType : Option String
  body : String

/-- What a message asks for. -/
inductive Ask where
  | call (q : Request)
  /-- The status document, or only its head. -/
  | status (withBody : Bool)

/-- The status of a bad body. -/
def ofFlaw : Json.Flaw → Nat
  | .malformed => 400
  | .mistyped => 422

/-- What a message asks for, or the status that turns it away. -/
def read (m : Message) : Except Nat Ask :=
  match Route.ofTarget? m.target with
  | none => .error 404
  | some .status =>
    if m.method = "GET" then .ok (.status true)
    else if m.method = "HEAD" then .ok (.status false)
    else .error 405
  | some (.call c) =>
    if m.method ≠ "POST" then .error 405
    else if !m.contentType.any announcesJson then .error 415
    else
      match (Wire.readRequest c Json.maxDepth).run m.body.toList with
      | .error f => .error (ofFlaw f)
      | .ok (q, _) => .ok (.call q)

end Http

end LockCell
