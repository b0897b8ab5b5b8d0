import LockCell.Lease
import LockCell.Request

/-
  LockCell.Client.Session — a client's side of a session.

  The client keeps its own lease, which runs from before the server's does. While it runs
  the session is active: one keep-alive is out at the current server, and its answer
  carries the new length of the lease. When it runs out the session is in jeopardy: the
  keep-alive is given up, and the candidates are asked in turn, over and over, to take the
  session with the locks it holds. The first that says yes is the server from then on, and
  the lease counts from when it was asked. A no, the end of the grace period, or a call of
  `close` expires the session for good.

  Lock calls go out while the session is active and wait while it is in jeopardy. A call
  is sent again only if the peer hung up on it.

  `step?` is what happens next at an instant without anything from outside; `answer` brings
  an answer in. What goes out is told as a list of effects. Each round of keep-alives has a
  number, its generation, and an answer of an earlier one is dropped.
-/

namespace LockCell

inductive LockOp where
  | openLock (path : Path)
  | deleteLock (path : Path)
  | acquireLock (path : Path) (mode : Mode)
  | releaseLock (path : Path)
  deriving DecidableEq, Repr

def LockOp.request (c : Client) : LockOp → Request
  | .openLock p => .openLock c p
  | .deleteLock p => .deleteLock c p
  | .acquireLock p m => .acquireLock c p m
  | .releaseLock p => .releaseLock c p

inductive Phase where
  | active
  /-- The lease has run out; the session expires at `deadline` unless it is taken over. -/
  | jeopardy (deadline : Nat)
  | expired
  deriving DecidableEq, Repr

/-- What a client has out at a server. -/
inductive Ask where
  | keepAlive (generation : Nat)
  | probe
  | lock (call : Nat)
  deriving DecidableEq, Repr

inductive Effect where
  | send (ask : Ask) (addr : Addr) (request : Request)
  /-- The answer is not awaited any more. -/
  | cancel (ask : Ask)
  | finish (call : Nat) (r : Except Error Response)

inductive CallState where
  /-- The call waits for the session to be active. -/
  | gate
  | flying
  /-- The peer hung up; it goes back to the gate at this instant. -/
  | resting (till : Nat)
  deriving DecidableEq, Repr

structure LockCall where
  id : Nat
  op : LockOp
  state : CallState
  deriving DecidableEq, Repr

inductive Watch where
  | renewing
  | searching
  | over
  deriving DecidableEq, Repr

inductive Probe where
  | idle
  /-- The candidates from this one on are left; the first of them was asked at `sent`. -/
  | asking (addr : Addr) (sent : Nat) (rest : List Addr)
  | resting (till : Nat)
  deriving DecidableEq, Repr

structure ClientSession where
  client : Client
  config : LeaseConfig
  candidates : List Addr
  server : Addr
  start : Nat
  lease : Nat
  /-- The locks that the client believes it holds. -/
  held : Dict Mode := ∅
  phase : Phase := .active
  closed : Bool := false
  watch : Watch := .renewing
  generation : Nat := 0
  /-- A keep-alive of this generation is out. -/
  inFlight : Bool := false
  next : Option Nat
  /-- Answers to keep-alives that have yet to be looked at. -/
  inbox : List (Nat × Except Error KeepAlive) := []
  probe : Probe := .idle
  /-- A candidate's answer, and when it was asked. -/
  found : Option (Addr × KeepAlive × Nat) := none
  calls : List LockCall := []

namespace ClientSession

/-- The session that a server has just made; the lease counts from `begun`. -/
def begin (config : ClientConfig) (server : Addr) (begun now : Nat) : ClientSession :=
  { client := config.client, config := config.lease, candidates := config.servers, server,
    start := begun, lease := config.lease.length, next := some now }

def deadline (s : ClientSession) : Nat := s.start + s.lease

def expire (s : ClientSession) : ClientSession := { s with phase := .expired, closed := true }

def close (s : ClientSession) : ClientSession := s.expire

abbrev Step := ClientSession × List Effect

/-! ## Keep-alives -/

def renew (s : ClientSession) (now : Nat) : Step :=
  if !s.inFlight && s.next.any (· ≤ now) then
    ({ s with inFlight := true, next := none },
     [.send (.keepAlive s.generation) s.server (.keepAlive s.client none)])
  else (s, [])

def endWatch (s : ClientSession) : Step :=
  let outstanding := match s.watch with
    | .renewing => if s.inFlight then [.cancel (.keepAlive s.generation)] else []
    | .searching => match s.probe with
      | .asking .. => [.cancel .probe]
      | _ => []
    | .over => []
  ({ s with watch := .over, inFlight := false, probe := .idle }, outstanding)

def take (s : ClientSession) (generation : Nat) (r : Except Error KeepAlive) (now : Nat) : Step :=
  if generation ≠ s.generation then s.renew now
  else
    let s := { s with inFlight := false }
    match r with
    | .ok k =>
      if k.expired then s.expire.endWatch
      else { s with lease := k.lease, next := some now }.renew now
    | .error e =>
      if e.isTransient then { s with next := some (now + s.config.probe) }.renew now
      else s.renew now

def fallInJeopardy (s : ClientSession) : Step :=
  ({ s with
      phase := .jeopardy (s.deadline + s.config.jeopardy)
      watch := .searching
      probe := .idle
      found := none },
   if s.inFlight then [.cancel (.keepAlive s.generation)] else [])

def renewStep? (s : ClientSession) (now : Nat) : Option Step :=
  match s.inbox with
  | (g, r) :: rest => some ({ s with inbox := rest }.take g r now)
  | [] =>
    if s.deadline ≤ now then some s.fallInJeopardy
    else if !s.inFlight && s.next.any (· ≤ now) then some (s.renew now)
    else none

/-! ## Jeopardy -/

/-- Asks the first of the candidates left, or rests if none is. -/
def ask (s : ClientSession) (now : Nat) : List Addr → Step
  | [] => ({ s with probe := .resting (now + s.config.probe) }, [])
  | a :: rest =>
    ({ s with probe := .asking a now rest },
     [.send .probe a (.keepAlive s.client (some s.held))])

def recover (s : ClientSession) (a : Addr) (k : KeepAlive) (sent now : Nat) : Step :=
  { s with
    start := sent
    lease := k.lease
    server := a
    phase := .active
    watch := .renewing
    probe := .idle
    found := none
    generation := s.generation + 1
    inFlight := false
    next := some now }.renew now

def searchStep? (s : ClientSession) (now : Nat) : Option Step :=
  match s.found, s.phase with
  | some (a, k, sent), _ =>
    if k.expired then some s.expire.endWatch else some (s.recover a k sent now)
  | none, .jeopardy d =>
    if d ≤ now then some s.expire.endWatch
    else
      match s.probe with
      | .idle => some (s.ask now s.candidates)
      | .resting t => if t ≤ now then some (s.ask now s.candidates) else none
      | .asking .. => none
  | none, _ => none

def watchStep? (s : ClientSession) (now : Nat) : Option Step :=
  match s.watch with
  | .over => none
  | .renewing => if s.closed then some s.endWatch else s.renewStep? now
  | .searching => if s.closed then some s.endWatch else s.searchStep? now

/-! ## Lock calls -/

def setCall (s : ClientSession) (c : LockCall) : ClientSession :=
  { s with calls := s.calls.map fun d => if d.id = c.id then c else d }

def dropCall (s : ClientSession) (id : Nat) : ClientSession :=
  { s with calls := s.calls.filter (·.id ≠ id) }

def callStep? (s : ClientSession) (now : Nat) (c : LockCall) : Option Step :=
  match c.state with
  | .flying => none
  | .resting t => if t ≤ now then some (s.setCall { c with state := .gate }, []) else none
  | .gate =>
    match s.phase with
    | .jeopardy _ => none
    | .expired => some (s.dropCall c.id, [.finish c.id (.error (.sessionExpired s.client))])
    | .active =>
      some (s.setCall { c with state := .flying },
            [.send (.lock c.id) s.server (c.op.request s.client)])

/-- What the session does next at this instant, if anything. -/
def step? (s : ClientSession) (now : Nat) : Option Step :=
  s.watchStep? now <|> s.calls.findSome? (s.callStep? now)

/-- Why a call need not be sent: the client knows better. -/
def refusal? (s : ClientSession) : LockOp → Option LockError
  | .acquireLock p _ => if p ∈ s.held then some (.alreadyOwned s.client p) else none
  | .releaseLock p => if p ∈ s.held then none else some (.notOwned s.client p)
  | .openLock _ | .deleteLock _ => none

def call (s : ClientSession) (id : Nat) (op : LockOp) : Step :=
  match s.refusal? op with
  | some e => (s, [.finish id (.error (.lock e))])
  | none => ({ s with calls := s.calls ++ [⟨id, op, .gate⟩] }, [])

/-- The caller of a lock call has gone. -/
def abandon (s : ClientSession) (id : Nat) : Step :=
  (s.dropCall id,
   if s.calls.any fun c => c.id = id && c.state = .flying then [.cancel (.lock id)] else [])

/-- What the client believes it holds after a successful call. -/
def record (s : ClientSession) (op : LockOp) (r : Response) : ClientSession :=
  match op, r with
  | .acquireLock p m, .acquired true => { s with held := s.held.insert p m }
  | .deleteLock p, _ | .releaseLock p, _ => { s with held := s.held.erase p }
  | _, _ => s

def lockAnswer (s : ClientSession) (id : Nat) (r : Except Error Response) (now : Nat) : Step :=
  match s.calls.find? (·.id = id) with
  | none => (s, [])
  | some c =>
    match r with
    | .ok a => ((s.dropCall id).record c.op a, [.finish id (.ok a)])
    | .error e =>
      if e.isTransient then
        (s.setCall { c with state := .resting (now + s.config.probe) }, [])
      else (s.dropCall id, [.finish id (.error e)])

/-! ## Answers -/

def keptOf : Except Error Response → Except Error KeepAlive
  | .ok (.kept k) => .ok k
  | .ok _ => .error .noServerAvailable
  | .error e => .error e

def probeAnswer (s : ClientSession) (r : Except Error KeepAlive) (now : Nat) : Step :=
  match s.probe with
  | .asking a sent rest =>
    match r with
    | .ok k => ({ s with probe := .idle, found := some (a, k, sent) }, [])
    | .error _ => s.ask now rest
  | _ => (s, [])

def answer (s : ClientSession) (ask : Ask) (r : Except Error Response) (now : Nat) : Step :=
  match ask with
  | .keepAlive g => ({ s with inbox := s.inbox ++ [(g, keptOf r)] }, [])
  | .probe => s.probeAnswer (keptOf r) now
  | .lock id => s.lockAnswer id r now

/-- When the session does something of its own next. -/
def alarms (s : ClientSession) : List Nat :=
  (match s.watch with
    | .renewing => s.deadline :: s.next.toList
    | .searching =>
      (match s.phase with
        | .jeopardy d => [d]
        | _ => []) ++
      match s.probe with
      | .resting t => [t]
      | _ => []
    | .over => []) ++
  s.calls.filterMap fun c =>
    match c.state with
    | .resting t => some t
    | _ => none

end ClientSession

end LockCell
