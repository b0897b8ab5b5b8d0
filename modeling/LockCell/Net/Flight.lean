import LockCell.Client.Session
import LockCell.Net.Delivery

/-
  LockCell.Net.Flight — requests on their way, and the mishaps that befall them.

  A request travels for the latency that was set when it was sent. When it arrives, the
  first mishap that is meant for its address (and route) befalls it, and is used up by one.
  Then it is at the server, if there is one; the answer comes back within the same instant.
-/

namespace LockCell

/-- What happens to a request or to its reply. Only `dropAfter`, `cutBody` and `delay` let it be
served. -/
inductive Mishap where
  | refuse
  | reset
  | drop
  | dropAfter
  | cutBody (code : Nat)
  | reply (code : Nat) (body : String)
  | hang
  | delay (span : Nat)
  deriving DecidableEq, Repr

structure Trap where
  addr : Addr
  route : Option String
  mishap : Mishap
  times : Nat
  deriving DecidableEq, Repr

namespace Trap

def meantFor (t : Trap) (a : Addr) (r : Route) : Bool :=
  t.addr == a && t.route.all (· == r.text) && 0 < t.times

/-- The mishap that befalls a request, and the traps after it. -/
def spring (a : Addr) (r : Route) : List Trap → Option (Mishap × List Trap)
  | [] => none
  | t :: rest =>
    if t.meantFor a r then some (t.mishap, { t with times := t.times - 1 } :: rest)
    else (spring a r rest).map fun (m, rest) => (m, t :: rest)

end Trap

/-- Who waits for an answer, by number. -/
inductive Caller where
  | call (id : Nat)
  | search (id : Nat)
  | session (client : Nat) (ask : Ask)
  | program (id : Nat)
  deriving DecidableEq, Repr

/-- What the caller will see of the server's reply. -/
inductive Return where
  | intact
  | lost
  | cut (code : Nat)
  deriving DecidableEq, Repr

inductive Whereabouts where
  | travelling (till : Nat)
  /-- A mishap holds it up; it has none after that. -/
  | delayed (till : Nat)
  | hanging
  | parked
  deriving DecidableEq, Repr

structure Flight where
  id : Nat
  caller : Caller
  addr : Addr
  /-- The request, or `none` for the status document. -/
  request : Option Request
  place : Whereabouts
  back : Return := .intact

namespace Flight

def route (f : Flight) : Route :=
  match f.request with
  | some q => .call q.call
  | none => .status

/-- When the network does something with it next. -/
def alarm? (f : Flight) : Option Nat :=
  match f.place with
  | .travelling t | .delayed t => some t
  | .hanging | .parked => none

def deliver (f : Flight) (d : Delivery) : Delivery :=
  match f.back with
  | .intact => d
  | .lost => .closed
  | .cut code => .raw code none

end Flight

end LockCell
