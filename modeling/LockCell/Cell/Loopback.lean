import LockCell.Cell.Act

/-
  LockCell.Cell.Loopback — a cell of numbered nodes that is only looked at.

  The nodes are called `node0`, `node1` and so on and are reached under their names; the
  first one leads. No network leads to them.
-/

namespace LockCell

/-- A cell of `size` nodes. -/
structure Loopback where
  size : Nat
  lease : LeaseConfig
  cell : Cell

namespace Loopback

def name (i : Nat) : Node := "node" ++ toString i

def start (size : Nat) (lease : LeaseConfig) : Loopback where
  size
  lease
  cell :=
    .start lease 0 ((List.range size).map fun i => (name i, name i, name i))
      (if size = 0 then none else some (name 0))

/-- The number of the node that leads. -/
def leader? (b : Loopback) : Option Nat :=
  (List.range b.size).find? fun i => b.cell.cluster.leads (name i)

/-- Where the leader is reached. -/
def leaderAddr? (b : Loopback) : Option Addr := b.leader?.map name

def elect (b : Loopback) (i : Nat) : Loopback :=
  { b with cell := (b.cell.step (.elect (name i))).2 }

def stepDown (b : Loopback) : Loopback := { b with cell := (b.cell.step .stepDown).2 }

/-- The node goes down; it leads no more. -/
def crash (b : Loopback) (i : Nat) : Loopback :=
  { b with cell := (b.cell.step (.crash (name i))).2 }

/-- What a client of the cell is started with. -/
def clientConfig (b : Loopback) (client : Client) : ClientConfig :=
  ⟨client, (List.range b.size).map name, b.lease⟩

/-- The live sessions of a node. -/
def sessions (b : Loopback) (i : Nat) : Nat :=
  match b.cell.serverOf? (name i) with
  | some (_, v) => v.liveSessions
  | none => 0

end Loopback

end LockCell
