import LockCell.Clock
import LockCell.Request
import LockCell.Stamp
import LockCell.Wire.Errors

/-
  LockCell.Wire.Messages — the JSON texts of requests, responses and the status document.

  Each request and each response is a record. A keep-alive without claims leaves the
  field out, which is not the same as claiming no locks. A span of time is a strict record
  of seconds and nanoseconds.
-/

namespace LockCell.Wire

open Json

/-- A span in nanoseconds, its seconds counted in 64 bits; what is too many nanoseconds for a
second carries over. -/
def span : Codec Nat :=
  ((Fields.cons (.required "secs" (.nat Text.wordBound))
      (.cons (.required "nanos" (.nat Text.halfWordBound)) .nil)).codec true).refine
    (fun n => (n / Clock.second, n % Clock.second, ()))
    fun (s, n, _) =>
      let total := s * Clock.second + n
      if total / Clock.second < Text.wordBound then some total else none

def client : FieldSpec Client := .required "client_id" .text

def path : FieldSpec Path := .required "path" .text

/-- What a client sends to get a session. -/
def initSession : Codec Client := record₁ client

/-- A client and the locks that it claims, if it claims any. -/
def keepAlive : Codec (Client × Option (Dict Mode)) :=
  record₂ client
    { name := "locks", codec := (Codec.dict mode).option, absent := some none,
      trailing := some none, omitted := (·.isNone) }

/-- What opens, deletes or releases a lock. -/
def lockCall : Codec (Client × Path) := record₂ client path

def acquireLock : Codec (Client × Path × Mode) := record₃ client path (.required "mode" mode)

def join : Codec (Node × Addr) :=
  record₂ (.required "node_id" .text) (.required "raft_addr" .text)

def master : Codec Addr := record₁ (.required "leader_address" .text)

def kept : Codec KeepAlive :=
  (record₂ (.required "lease_length" span) (.withDefault "expired" .bool false)).map
    (fun k => (k.lease, k.expired)) fun (l, e) => ⟨l, e⟩

def acquired : Codec Bool := record₁ (.required "is_successful" .bool)

/-- A response that says nothing more. -/
def done : Codec Unit := Fields.nil.codec false

/-- A moment of the calendar. -/
def stamp : Codec Stamp :=
  Codec.text.refine (fun t => String.ofList t.write) fun s => Stamp.read? s.toList

/-- What a server says of itself, and of its clock. -/
structure StatusDocument where
  status : Status
  startedAt : Stamp
  /-- Whole seconds. -/
  uptime : Nat
  deriving DecidableEq, Repr

def count : Codec Nat := .nat Text.wordBound

def statusDocument : Codec StatusDocument :=
  ((Fields.cons (.required "node_id" .text) <|
    .cons (.required "listen" .text) <|
    .cons (.required "is_leader" .bool) <|
    .cons (.nullable "leader" .text) <|
    .cons (.required "sessions" count) <|
    .cons (.required "locks" count) <|
    .cons (.required "started_at" stamp) <|
    .cons (.required "uptime_seconds" count) .nil).codec false).map
    (fun ⟨⟨n, a, leads, l, s, k⟩, t, u⟩ => (n, a, leads, l, s, k, t, u, ()))
    fun (n, a, leads, l, s, k, t, u, _) => ⟨⟨n, a, leads, l, s, k⟩, t, u⟩

/-! ## By kind of call -/

/-- Reads the request of a call. -/
def readRequest (c : Call) (depth : Nat) : Reader Request :=
  match c with
  | .initSession => .initSession <$> initSession.read depth
  | .keepAlive => (fun (c, d) => .keepAlive c d) <$> keepAlive.read depth
  | .openLock => (fun (c, p) => .openLock c p) <$> lockCall.read depth
  | .deleteLock => (fun (c, p) => .deleteLock c p) <$> lockCall.read depth
  | .acquireLock => (fun (c, p, m) => .acquireLock c p m) <$> acquireLock.read depth
  | .releaseLock => (fun (c, p) => .releaseLock c p) <$> lockCall.read depth
  | .join => (fun (n, a) => .join n a) <$> join.read depth

def writeRequest : Request → List Char
  | .initSession c => initSession.write c
  | .keepAlive c d => keepAlive.write (c, d)
  | .openLock c p | .deleteLock c p | .releaseLock c p => lockCall.write (c, p)
  | .acquireLock c p m => acquireLock.write (c, p, m)
  | .join n a => join.write (n, a)

def writeResponse : Response → List Char
  | .master a => master.write a
  | .kept k => kept.write k
  | .done => done.write ()
  | .acquired b => acquired.write b

/-- Reads the response to a call. -/
def readResponse (c : Call) (depth : Nat) : Reader Response :=
  match c with
  | .initSession => .master <$> master.read depth
  | .keepAlive => .kept <$> kept.read depth
  | .acquireLock => .acquired <$> acquired.read depth
  | .openLock | .deleteLock | .releaseLock | .join => (fun _ => .done) <$> done.read depth

/-- The reply to a call. -/
def replyTo (c : Call) : Codec Reply := reply ⟨writeResponse, readResponse c⟩

end LockCell.Wire
