import LockCell.Lease
import LockCell.Request

/-
  LockCell.Client.Search — finding the server that takes a new session.

  The candidates are asked one after another. A server that does not lead may name one
  that might; that one is asked next, but from each candidate no more redirects are
  followed than there are candidates. A candidate that cannot be reached, or whose
  redirects lead nowhere, is given up for the next. Any other refusal ends the search.
-/

namespace LockCell

structure Search where
  config : ClientConfig
  /-- When the search began; the lease will count from here. -/
  begun : Nat
  current : Addr
  /-- How many redirects may still be followed. -/
  hops : Nat
  rest : List Addr

namespace Search

inductive Next where
  | ask (s : Search)
  | found (s : Search)
  | failed (e : Error)

/-- On to the first of the candidates `rest`. -/
def candidate (config : ClientConfig) (begun : Nat) : List Addr → Next
  | [] => .failed .noServerAvailable
  | a :: rest => .ask ⟨config, begun, a, config.servers.length, rest⟩

def begin (config : ClientConfig) (now : Nat) : Next := candidate config now config.servers

/-- The error is no reason to give up the search. -/
def passable : Error → Bool
  | .notLeader _ | .transport .. => true
  | e => e.isTransient

def answered (s : Search) : Except Error Response → Next
  | .ok _ => .found s
  | .error e =>
    match e.redirect?, s.hops with
    | some a, hops + 1 => .ask { s with current := a, hops }
    | _, _ => if passable e then candidate s.config s.begun s.rest else .failed e

end Search

end LockCell
