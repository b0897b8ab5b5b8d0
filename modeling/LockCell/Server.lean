import LockCell.Cluster
import LockCell.Session.Locks

/-
  LockCell.Server — one server of a cell: a lock table and the sessions of its clients.

  The store is the cell's, so every operation takes the cluster and gives it back. All
  sessions that ever were are kept, because calls on a session may outlive it; the
  registry says which one a client's name stands for, the newest. A client has one live
  session at a time (`create`).

  A keep-alive comes with the locks that the client claims to hold, or without.
  - Without, it parks in the client's session, which is made if there is none.
  - With claims and a live session, the lease starts over at once.
  - With claims and no live session, a new session takes the claimed locks back in the
    order of their paths; if one cannot be had, the new session ends again.
-/

namespace LockCell

structure Server where
  node : Node
  /-- The address that the server gives as its own. -/
  listen : Addr
  lease : LeaseConfig
  slots : Slots := ∅
  sessions : Array Session := #[]
  /-- The session of each client, by its number. -/
  registry : Dict Nat := ∅

/-- What becomes of a call: it is over, or it waits in a session under a ticket. -/
inductive Handled (α : Type) where
  | done (r : Except Error α)
  | parked (session : Nat) (ticket : Nat)

namespace Server

def locks (v : Server) (k : Cluster) : Locks Cluster := ⟨v.slots, k⟩

def store (v : Server) : Store Cluster := Cluster.storeOf v.node

def setSession (v : Server) (i : Nat) (s : Session) : Server :=
  { v with sessions := v.sessions.setIfInBounds i s }

/-- The number and the session that a client's name stands for. -/
def session? (v : Server) (c : Client) : Option (Nat × Session) := do
  let i ← v.registry[c]?
  let s ← v.sessions[i]?
  return (i, s)

/-- The client's session if it has not ended. -/
def liveSession (v : Server) (c : Client) : Except Error (Nat × Session) :=
  match v.session? c with
  | none => .error (.sessionNotFound c)
  | some (i, s) => if s.ended then .error (.sessionExpired c) else .ok (i, s)

/-- How many clients have a live session. -/
def liveSessions (v : Server) : Nat :=
  (v.registry.values.filter fun i => (v.sessions[i]?).any (·.live)).length

/-- Makes a session for `c`; its number is the next one. -/
def push (v : Server) (c : Client) (now : Nat) : Server :=
  { v with
    sessions := v.sessions.push (.begin c v.lease now)
    registry := v.registry.insert c v.sessions.size }

def create (v : Server) (c : Client) (now : Nat) : Except Error (Nat × Server) :=
  match v.session? c with
  | some (_, s) =>
    if s.ended then .ok (v.sessions.size, v.push c now) else .error (.sessionExists c)
  | none => .ok (v.sessions.size, v.push c now)

/-- Does something with the session of that number, its table and the store. -/
def onSession {α : Type} (v : Server) (k : Cluster) (i : Nat) (missing : α)
    (f : Session → Locks Cluster → α × Session × Locks Cluster) : α × Server × Cluster :=
  match v.sessions[i]? with
  | none => (missing, v, k)
  | some s =>
    match f s (v.locks k) with
    | (a, s, l) => (a, { v.setSession i s with slots := l.slots }, l.store)

def terminate (v : Server) (k : Cluster) (i : Nat) : Server × Cluster :=
  (v.onSession k i () fun s l => ((), s.terminate v.store l)).2

def terminateClient (v : Server) (k : Cluster) (c : Client) :
    Except Error Unit × Server × Cluster :=
  match v.session? c with
  | none => (.error (.sessionNotFound c), v, k)
  | some (i, _) => (.ok (), v.terminate k i)

/-! ## Keep-alives -/

def park (v : Server) (i : Nat) : Handled KeepAlive × Server :=
  match v.sessions[i]? with
  | none => (.done (.error (.other "no such session")), v)
  | some s => (.parked i s.arrive.arrived, v.setSession i s.arrive)

/-- What a parked keep-alive is told: leadership may have moved while it waited. -/
def renewed (v : Server) (k : Cluster) (a : KeepAlive) : Except Error KeepAlive :=
  if a.expired || k.leads v.node then .ok a else .error k.refusal

/-- Takes claimed locks for the session of that number until one cannot be had; whether
all could. -/
def reclaim (v : Server) (k : Cluster) (i : Nat) : List (Path × Mode) → Bool × Server × Cluster
  | [] => (true, v, k)
  | (p, m) :: rest =>
    match v.onSession k i (.ok false) fun s l => s.acquire v.store l p m with
    | (.ok true, v, k) => reclaim v k i rest
    | (_, v, k) => (false, v, k)

/-- Rebuilds the session that a client had with another server. -/
def recover (v : Server) (k : Cluster) (c : Client) (claimed : Dict Mode) (now : Nat) :
    Except Error KeepAlive × Server × Cluster :=
  match v.create c now with
  | .error e => (.error e, v, k)
  | .ok (i, v) =>
    match v.reclaim k i claimed.toList with
    | (true, v, k) => (.ok ⟨v.lease.length, false⟩, v, k)
    | (false, v, k) =>
      match v.terminate k i with
      | (v, k) => (.ok ⟨v.lease.length, true⟩, v, k)

def keepAlive (v : Server) (k : Cluster) (c : Client) (claimed : Option (Dict Mode)) (now : Nat) :
    Handled KeepAlive × Server × Cluster :=
  match v.session? c, claimed with
  | some (i, _), none =>
    match v.park i with
    | (h, v) => (h, v, k)
  | none, none =>
    match v.create c now with
    | .error e => (.done (.error e), v, k)
    | .ok (i, v) =>
      match v.park i with
      | (h, v) => (h, v, k)
  | some (i, s), some claimed =>
    if s.ended then
      match v.recover k c claimed now with
      | (r, v, k) => (.done r, v, k)
    else (.done (.ok ⟨(s.refresh now).lease, false⟩), v.setSession i (s.refresh now), k)
  | none, some claimed =>
    match v.recover k c claimed now with
    | (r, v, k) => (.done r, v, k)

/-! ## The clock -/

/-- What the watch of the session of that number does now, if anything. -/
def look? (v : Server) (k : Cluster) (i : Nat) (now : Nat) : Option (Server × Cluster) :=
  match v.sessions[i]? with
  | none => none
  | some s =>
    match s.look now with
    | .asleep => none
    | .awake s => some (v.setSession i s, k)
    | .over => some (v.terminate k i)

/-- A keep-alive parked in the session of that number that can be answered: its ticket,
the answer, and the server after it. -/
def answer? (v : Server) (k : Cluster) (i : Nat) :
    Option (Nat × Except Error KeepAlive × Server) := do
  let s ← v.sessions[i]?
  let (t, a, s) ← s.answer?
  return (t, v.renewed k a, v.setSession i s)

/-- The caller of a parked keep-alive has gone. -/
def abandon (v : Server) (i ticket : Nat) : Server :=
  match v.sessions[i]? with
  | none => v
  | some s => v.setSession i (s.abandon ticket)

end Server

end LockCell
