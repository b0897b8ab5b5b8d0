import LockCell.Client.Program
import LockCell.Client.Search
import LockCell.CommandLine.Client
import LockCell.Net.Flight
import LockCell.Server.Serve

/-
  LockCell.Cell.Basic — a whole cell under one clock: servers, the network between them
  and their clients, and the clients.

  Servers are kept when they are replaced, since calls in them may outlive that; a node
  says which is its present one, and a host which one answers at an address. Whatever
  waits for something has a number of its own: a call, and with the same number the
  search, the program or the lock call that it stands for.
-/

namespace LockCell

structure Seat where
  addr : Addr
  /-- The address that the server gives as its own. -/
  listen : Addr
  server : Nat

/-- What answers at an address. -/
structure Host where
  server : Nat
  up : Bool

/-- Who holds the ticket of a parked keep-alive. -/
inductive Holder where
  | flight (id : Nat)
  /-- A call of the server's router, without a network. -/
  | http (call : Nat)
  /-- A call of the session itself. -/
  | direct (call : Nat)
  deriving DecidableEq, Repr

structure Waiter where
  server : Nat
  session : Nat
  ticket : Nat
  holder : Holder
  deriving DecidableEq, Repr

structure SearchRun where
  id : Nat
  /-- What the new session will be called; `none` for a program's. -/
  name : Option String
  search : Search

structure ProgramRun where
  id : Nat
  program : Program
  task : Task
  client : Option Nat := none

inductive Pending where
  | http
  | direct
  | rpc
  | search
  | lock (name : String) (client : Nat)
  | expiry (client : Nat)
  | program
  deriving DecidableEq, Repr

structure PendingCall where
  id : Nat
  tag : String
  kind : Pending
  deriving DecidableEq, Repr

inductive Body where
  | empty
  | reply (call : Call) (r : Reply)
  | status (s : Status)

inductive Result where
  | response (r : Except Error Response)
  | status (r : Except Error Status)
  | session (r : Except Error (Client × Addr))
  | http (code : Nat) (body : Body)
  | done (r : Except Error Unit)
  | usage (e : CommandLine.UsageError)

structure Finished where
  tag : String
  time : Nat
  result : Result

inductive Mail where
  | effect (client : Nat) (e : Effect)
  | event (program : Nat) (e : Event)

structure Cell where
  now : Nat := 0
  /-- The lease of new servers. -/
  lease : LeaseConfig
  latency : Nat := 0
  cluster : Cluster := .empty
  servers : Array Server := #[]
  seats : Dict Seat := ∅
  hosts : Dict Host := ∅
  traps : List Trap := []
  flights : List Flight := []
  /-- Requests sent since they were last counted. -/
  requests : Nat := 0
  clients : Array ClientSession := #[]
  names : Dict Nat := ∅
  /-- Server sessions by handle: the server's number and the session's. -/
  handles : Dict (Nat × Nat) := ∅
  waiters : List Waiter := []
  searches : List SearchRun := []
  programs : List ProgramRun := []
  calls : List PendingCall := []
  tags : Dict Nat := ∅
  mail : List Mail := []
  fresh : Nat := 0
  finished : List Finished := []
  printed : List Status := []

namespace Cell

def addNode (c : Cell) (n : Node) (addr listen : Addr) : Cell :=
  { c with
    cluster := c.cluster.register n addr
    servers := c.servers.push { node := n, listen, lease := c.lease }
    seats := c.seats.insert n ⟨addr, listen, c.servers.size⟩
    hosts := c.hosts.insert addr ⟨c.servers.size, true⟩ }

def start (lease : LeaseConfig) (latency : Nat) (nodes : List (Node × Addr × Addr))
    (leader : Option Node) : Cell :=
  let c := nodes.foldl (fun c (n, addr, listen) => c.addNode n addr listen) { lease, latency }
  match leader with
  | some n => { c with cluster := c.cluster.elect n }
  | none => c

def setServer (c : Cell) (i : Nat) (v : Server) (k : Cluster) : Cell :=
  { c with servers := c.servers.setIfInBounds i v, cluster := k }

def serverOf? (c : Cell) (n : Node) : Option (Nat × Server) := do
  let seat ← c.seats[n]?
  let v ← c.servers[seat.server]?
  return (seat.server, v)

def finish (c : Cell) (id : Nat) (r : Result) : Cell :=
  match c.calls.find? (·.id = id) with
  | none => c
  | some p =>
    { c with
      calls := c.calls.filter (·.id ≠ id)
      finished := c.finished ++ [⟨p.tag, c.now, r⟩] }

def beginCall (c : Cell) (tag : String) (kind : Pending) : Nat × Cell :=
  (c.fresh,
   { c with
     fresh := c.fresh + 1
     calls := c.calls ++ [⟨c.fresh, tag, kind⟩]
     tags := c.tags.insert tag c.fresh })

/-- Sends a request, or asks for the status document. -/
def send (c : Cell) (caller : Caller) (addr : Addr) (request : Option Request) : Cell :=
  { c with
    fresh := c.fresh + 1
    requests := c.requests + 1
    flights := c.flights ++
      [⟨c.fresh, caller, addr, request, .travelling (c.now + c.latency), .intact⟩] }

/-- Nobody holds this ticket any more. -/
def dropWaiter (c : Cell) (h : Holder) : Cell :=
  match c.waiters.find? (·.holder = h) with
  | none => c
  | some w =>
    let c := { c with waiters := c.waiters.filter (·.holder ≠ h) }
    match c.servers[w.server]? with
    | none => c
    | some v => c.setServer w.server (v.abandon w.session w.ticket) c.cluster

/-- Takes a request off the network; its server stops working on it. -/
def dropFlight (c : Cell) (id : Nat) : Cell :=
  { c with flights := c.flights.filter (·.id ≠ id) }.dropWaiter (.flight id)

def cancel (c : Cell) (caller : Caller) : Cell :=
  (c.flights.filter (·.caller = caller)).foldl (fun c f => c.dropFlight f.id) c

def setClient (c : Cell) (i : Nat) (s : ClientSession.Step) : Cell :=
  { c with
    clients := c.clients.setIfInBounds i s.1
    mail := c.mail ++ s.2.map (.effect i) }

end Cell

end LockCell
