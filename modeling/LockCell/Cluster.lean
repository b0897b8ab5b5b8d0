import LockCell.Log.Replay
import LockCell.Store

/-
  LockCell.Cluster — the store that the servers of a cell share: one log, its contents,
  the members, and who leads.

  Every member reads the same contents; only the leader writes (`Cluster.storeOf`). A write
  appends one entry to the log, and to its file if there is one. Leadership is moved from
  outside and is not checked: a leader need not be a member. A cell that was joined to
  another one names the other's leader while no member of its own leads.
-/

namespace LockCell

structure Cluster where
  contents : Contents := ∅
  /-- The entries of the log, the oldest first, as they are written. -/
  entries : List Bytes := []
  /-- What the log's file holds, if the log has one. -/
  file : Option Bytes := none
  members : Dict Addr := ∅
  leader : Option Node := none
  /-- The leader of the cell that this one follows. -/
  followed : Option Addr := none

namespace Cluster

def empty : Cluster := {}

/-- Adds a server, or moves one to another address. -/
def register (k : Cluster) (n : Node) (a : Addr) : Cluster :=
  { k with members := k.members.insert n a }

def elect (k : Cluster) (n : Node) : Cluster := { k with leader := some n }

def stepDown (k : Cluster) : Cluster := { k with leader := none }

def follow (k : Cluster) (a : Addr) : Cluster := { k with followed := some a }

def leads (k : Cluster) (n : Node) : Bool := k.leader == some n

/-- Where callers are sent; nowhere if the leader is not a member. -/
def leaderAddr? (k : Cluster) : Option Addr :=
  match k.leader with
  | some n => k.members[n]?
  | none => k.followed

/-- The refusal of a server that does not lead. -/
def refusal (k : Cluster) : Error := .notLeader k.leaderAddr?

def commit (k : Cluster) (c : Command) : Cluster :=
  { k with
    entries := k.entries ++ [c.encode]
    file := k.file.map (· ++ c.encode)
    contents := k.contents.run c }

/-- What a server can do if it leads. -/
def whenLeading {α : Type} (k : Cluster) (n : Node) (a : α) : Except Error α :=
  if k.leads n then .ok a else .error k.refusal

/-- The store as the server `n` sees it. -/
def storeOf (n : Node) : Store Cluster where
  get k key := .ok k.contents[key]?
  apply k c := k.whenLeading n (k.commit c)

def join (k : Cluster) (n m : Node) (a : Addr) : Except Error Cluster :=
  k.whenLeading n (k.register m a)

/-- A cell on the file of an earlier one. -/
def ofFile (bs : Bytes) : Except Error Cluster :=
  match Log.replay bs with
  | .error c => .error (.serialization c)
  | .ok cs =>
    .ok { contents := .ofCommands cs, entries := cs.map Command.encode, file := some bs }

end Cluster

end LockCell
