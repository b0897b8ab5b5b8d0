import LockCell.Http.Router
import LockCell.Http.Status

/-
  LockCell.Net.Delivery — what becomes of a request on its way to a server and back, and
  what its caller makes of that.

  If the peer hangs up before the whole reply is read, the caller cannot know whether the
  request was served; only then may it be sent again (`Error.isTransient`). A server's own
  reply is taken for what it says. A reply that is not one of the cell's is judged by its
  status and its body. The status document is read whatever the status is.
-/

namespace LockCell

inductive Delivery where
  /-- The peer hung up before a reply, or before the end of a reply of a good status. -/
  | closed
  /-- The request was refused, or reset before it was served. -/
  | unsent
  | reply (r : Reply)
  | status (s : Status)
  /-- A reply that is not the server's; `none` is a body that could not be read. -/
  | raw (code : Nat) (body : Option String)

namespace Delivery

def url (a : Addr) (r : Route) : String := "http://" ++ a ++ r.text

def unsentError (a : Addr) (r : Route) : Error :=
  .transport a ("error sending request for url (" ++ url a r ++ ")")

def undecodable (a : Addr) : Error := .transport a "error decoding response body"

/-- A fault is the error it came from, as far as it tells. -/
def ofReply (r : Reply) : Except Error Response := r.mapError Fault.toError

/-- What the caller of `c` at `a` gets. -/
def outcome (c : Call) (a : Addr) : Delivery → Except Error Response
  | closed => .error (.connectionClosed a)
  | unsent => .error (unsentError a (.call c))
  | reply r => ofReply r
  | status _ => .error (undecodable a)
  | raw code body =>
    if Http.isSuccess code then
      match body with
      | none => .error (.connectionClosed a)
      | some b =>
        match (Wire.replyTo c).readAll b with
        | .error _ => .error (undecodable a)
        | .ok r => ofReply r
    else .error (.transport a (Http.statusLine code ++ ": " ++ body.getD ""))

/-- What a caller that asks for the status document at `a` gets. -/
def statusOutcome (a : Addr) : Delivery → Except Error Status
  | closed => .error (.connectionClosed a)
  | unsent => .error (unsentError a .status)
  | reply _ => .error (undecodable a)
  | status s => .ok s
  | raw _ body =>
    match body with
    | none => .error (.connectionClosed a)
    | some b =>
      match Wire.statusDocument.readAll b with
      | .error _ => .error (undecodable a)
      | .ok d => .ok d.status

end Delivery

end LockCell
