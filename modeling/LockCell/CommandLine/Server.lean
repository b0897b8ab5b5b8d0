import LockCell.CommandLine.Grammar

/-
  LockCell.CommandLine.Server — the command line of a server.
-/

namespace LockCell

structure ServerOptions where
  /-- Where clients reach the server. -/
  listen : Addr
  logDir : String
  /-- Where the other servers reach it. -/
  peerAddr : Addr
  node : Option Node
  /-- A server of the cell that it joins. -/
  join : Option Addr
  inMemory : Bool
  deriving DecidableEq, Repr

namespace ServerOptions

def bootstrap (o : ServerOptions) : Bool := o.join.isNone

def grammar : CommandLine.Grammar where
  options :=
    [⟨"listen", .text, some "CHUBBY_LISTEN"⟩, ⟨"raft-dir", .path, some "CHUBBY_RAFT_DIR"⟩,
     ⟨"raft-bind", .text, some "CHUBBY_RAFT_BIND"⟩, ⟨"id", .text, some "CHUBBY_NODE_ID"⟩,
     ⟨"join", .text, some "CHUBBY_JOIN"⟩, ⟨"inmem", .nothing, some "CHUBBY_INMEM"⟩]
  versioned := true

def parse (args : List String) (env : Dict String) :
    Except CommandLine.UsageError ServerOptions := do
  let g ← grammar.readAll args env
  return {
    listen := g.text "listen" "127.0.0.1:5379"
    logDir := g.text "raft-dir" "./"
    peerAddr := g.text "raft-bind" "127.0.0.1:15379"
    node := g.text? "id"
    join := g.text? "join"
    inMemory := g.flag "inmem" }

end ServerOptions

end LockCell
