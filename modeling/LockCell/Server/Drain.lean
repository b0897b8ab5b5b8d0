import LockCell.Server
import Mathlib.Logic.Function.Basic

/-
  LockCell.Server.Drain — the end of a session, one lock at a time.

  `Server.terminate` ends a session in one go. Here the end takes its time. The session is
  marked and gives up its list (`mark`); from then on its client may begin another one. Then
  the locks that were on the list are released one by one, by the name of the client
  (`release`), and between any two of them other things are done at the server (`moved`).

  The table knows clients, not sessions. Which session has got its client into the table is
  kept beside it (`credit`), for the statements alone: no step looks at it.
-/

namespace LockCell

def Server.owns (v : Server) (c : Client) (p : Path) : Bool :=
  (v.slots.record? p).any (·.ownedBy c)

/-- A server and the store while sessions come to their ends. -/
structure Draining where
  server : Server
  cluster : Cluster
  /-- The locks that the end of each session has yet to let go. -/
  left : Nat → List Path := fun _ => []
  /-- The session with which a client has acquired a lock that it owns. -/
  credit : Client → Path → Option Nat := fun _ _ => none

namespace Draining

def fresh (n : Node) (listen : Addr) (lease : LeaseConfig) (k : Cluster) : Draining where
  server := { node := n, listen, lease }
  cluster := k

/-- Server and store have become `x`. Who owns a lock now and did not before has acquired it
with the session that its name stands for. -/
def moved (d : Draining) (x : Server × Cluster) : Draining where
  server := x.1
  cluster := x.2
  left := d.left
  credit c p :=
    if x.1.owns c p then if d.server.owns c p then d.credit c p else x.1.registry[c]? else none

/-- The session of that number is marked as ended and gives up its list, unless it has ended
before. -/
def mark (d : Draining) (i : Nat) : Draining :=
  match d.server.sessions[i]? with
  | none => d
  | some s =>
    if s.ended then d
    else
      { d with
        server := d.server.setSession i s.close
        left := Function.update d.left i s.held.keys }

/-- The end of the session of that number releases its next lock, whatever comes of it. -/
def release (d : Draining) (i : Nat) : Draining :=
  match d.server.sessions[i]?, d.left i with
  | some s, p :: ps =>
    let l := ((d.server.locks d.cluster).release d.server.store s.client p).2
    { d.moved ({ d.server with slots := l.slots }, l.store) with
      left := Function.update d.left i ps }
  | _, _ => d

end Draining

end LockCell
