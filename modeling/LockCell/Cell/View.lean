import LockCell.Cell.Basic

/-
  LockCell.Cell.View — what is shown of a cell between steps.
-/

namespace LockCell

/-- A node's live sessions and its locks. -/
structure NodeView where
  sessions : Nat
  locks : List Record
  deriving DecidableEq

/-- How a client session stands. -/
structure ClientView where
  phase : Phase
  server : Addr
  lease : Nat
  held : Dict Mode
  deriving DecidableEq

structure CellView where
  /-- Entries in the log. -/
  log : Nat
  nodes : List (Node × NodeView)
  clients : List (String × ClientView)
  deriving DecidableEq

namespace Cell

def nodeView (c : Cell) (n : Node) : NodeView :=
  match c.serverOf? n with
  | some (_, v) => ⟨v.liveSessions, v.slots.records⟩
  | none => ⟨0, []⟩

def clientView? (c : Cell) (k : Nat) : Option ClientView :=
  (c.clients[k]?).map fun s => ⟨s.phase, s.server, s.lease, s.held⟩

def view (c : Cell) : CellView where
  log := c.cluster.entries.length
  nodes := c.seats.keys.map fun n => (n, c.nodeView n)
  clients := c.names.toList.filterMap fun (n, k) => (c.clientView? k).map (n, ·)

end Cell

end LockCell
