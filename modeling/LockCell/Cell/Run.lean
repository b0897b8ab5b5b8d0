import LockCell.Cell.Basic

/-
  LockCell.Cell.Run — what happens in a cell by itself.

  `next?` is one thing that can happen at the present instant; `settle` lets things happen
  until nothing can, and `runTo` goes from alarm to alarm up to an instant, settling at
  each. Mail is seen to first, so that what one party does has reached the others before
  anything new begins.
-/

namespace LockCell

namespace Cell

/-! ## Searches and programs -/

def dropSearch (c : Cell) (id : Nat) : Cell :=
  { c with searches := c.searches.filter (·.id ≠ id) }

def setProgram (c : Cell) (p : ProgramRun) : Cell :=
  { c with programs := c.programs.map fun q => if q.id = p.id then p else q }

/-- The search of that number goes on. -/
def searchOn (c : Cell) (id : Nat) (name : Option String) : Search.Next → Cell
  | .ask s =>
    let c := c.dropSearch id
    let c := { c with searches := c.searches ++ [SearchRun.mk id name s] }
    c.send (.search id) s.current (some (.initSession s.config.client))
  | .found s =>
    let k := c.clients.size
    let c := c.dropSearch id
    let c := { c with clients := c.clients.push (.begin s.config s.current s.begun c.now) }
    match name with
    | some n =>
      { c with names := c.names.insert n k }.finish id (.session (.ok (s.config.client, s.current)))
    | none =>
      { c with
        programs := c.programs.map fun p => if p.id = id then { p with client := some k } else p
        mail := c.mail ++ [.event id (.connected (.ok ()))] }
  | .failed e =>
    let c := c.dropSearch id
    match name with
    | some _ => c.finish id (.session (.error e))
    | none => { c with mail := c.mail ++ [.event id (.connected (.error e))] }

/-- The client session of a program, and its number. -/
def clientOf? (c : Cell) (p : ProgramRun) : Option (Nat × ClientSession) := do
  let k ← p.client
  let s ← c.clients[k]?
  return (k, s)

/-- A program does its task. -/
def perform (c : Cell) (p : ProgramRun) : Cell :=
  match p.task with
  | .connect => c.searchOn p.id none (Search.begin p.program.config c.now)
  | .call op =>
    match c.clientOf? p with
    | some (k, s) => c.setClient k (s.call p.id op)
    | none => c
  | .askStatus a => c.send (.program p.id) a none
  | .sleep _ | .awaitExpiry | .stay => c
  | .finish closing r =>
    let c := match closing, c.clientOf? p with
      | true, some (k, s) => c.setClient k (s.close, [])
      | _, _ => c
    { c with programs := c.programs.filter (·.id ≠ p.id) }.finish p.id (.done r)

/-- A program goes on to its next task. -/
def moveProgram (c : Cell) (p : ProgramRun) (m : Program.Move) : Cell :=
  let p := { p with program := m.1, task := m.2 }
  (c.setProgram p).perform p

/-! ## Mail -/

def openMail (c : Cell) : Mail → Cell
  | .effect i (.send ask addr q) => c.send (.session i ask) addr (some q)
  | .effect i (.cancel ask) => c.cancel (.session i ask)
  | .effect _ (.finish id r) =>
    if c.programs.any (·.id = id) then { c with mail := c.mail ++ [.event id (.answered r)] }
    else c.finish id (.response r)
  | .event id e =>
    match c.programs.find? (·.id = id) with
    | some p => c.moveProgram p (p.program.resume c.now e)
    | none => c

def mailStep? (c : Cell) : Option Cell :=
  match c.mail with
  | [] => none
  | m :: rest => some ({ c with mail := rest }.openMail m)

/-! ## The network -/

/-- A request is over: its caller is told. -/
def deliver (c : Cell) (f : Flight) (d : Delivery) : Cell :=
  let c := c.dropFlight f.id
  let outcome := match f.request with
    | some q => d.outcome q.call f.addr
    | none => (d.statusOutcome f.addr).map fun _ => .done
  match f.caller with
  | .call id =>
    c.finish id <|
      match f.request with
      | some _ => .response outcome
      | none => .status (d.statusOutcome f.addr)
  | .search id =>
    match c.searches.find? (·.id = id) with
    | some r => c.searchOn id r.name (r.search.answered outcome)
    | none => c
  | .session i ask =>
    match c.clients[i]? with
    | some s => c.setClient i (s.answer ask outcome c.now)
    | none => c
  | .program id =>
    let c := match d.statusOutcome f.addr with
      | .ok s => { c with printed := c.printed ++ [s] }
      | .error _ => c
    { c with mail := c.mail ++ [.event id .statusRead] }

/-- What a server's answer looks like in a reply. -/
def toReply (r : Except Error Response) : Reply := r.mapError Fault.ofError

def setFlight (c : Cell) (f : Flight) : Cell :=
  { c with flights := c.flights.map fun g => if g.id = f.id then f else g }

/-- A request reaches whatever answers at its address. -/
def reach (c : Cell) (f : Flight) : Cell :=
  let server? := do
    let h ← c.hosts[f.addr]?
    if h.up then
      let v ← c.servers[h.server]?
      return (h.server, v)
    none
  match server? with
  | none => c.deliver f .unsent
  | some (i, v) =>
    match f.request with
    | none => c.deliver f (f.deliver (.status (v.status c.cluster)))
    | some q =>
      match v.serve c.cluster c.now q with
      | (.done r, v, k) => (c.setServer i v k).deliver f (f.deliver (.reply (toReply r)))
      | (.parked j t, v, k) =>
        let c := (c.setServer i v k).setFlight { f with place := .parked }
        { c with waiters := c.waiters ++ [⟨i, j, t, .flight f.id⟩] }

/-- A request arrives, and may have a mishap. -/
def arrive (c : Cell) (f : Flight) : Cell :=
  match Trap.spring f.addr f.route c.traps with
  | none => c.reach f
  | some (m, traps) =>
    let c := { c with traps }
    match m with
    | .refuse | .reset => c.deliver f .unsent
    | .drop => c.deliver f .closed
    | .dropAfter => c.reach { f with back := .lost }
    | .cutBody code => c.reach { f with back := .cut code }
    | .reply code body => c.deliver f (.raw code (some body))
    | .hang => c.setFlight { f with place := .hanging }
    | .delay span => c.setFlight { f with place := .delayed (c.now + span) }

def flightStep? (c : Cell) : Option Cell :=
  c.flights.findSome? fun f =>
    match f.place with
    | .travelling t => if t ≤ c.now then some (c.arrive f) else none
    | .delayed t => if t ≤ c.now then some (c.reach f) else none
    | .hanging | .parked => none

/-! ## Sessions at the servers -/

/-- A parked keep-alive is answered. -/
def release (c : Cell) (w : Waiter) (r : Except Error KeepAlive) : Cell :=
  let c := { c with waiters := c.waiters.filter (·.holder ≠ w.holder) }
  match w.holder with
  | .http id => c.finish id (.http 200 (.reply .keepAlive (toReply (r.map .kept))))
  | .direct id => c.finish id (.response (r.map .kept))
  | .flight id =>
    match c.flights.find? (·.id = id) with
    | some f => c.deliver f (f.deliver (.reply (toReply (r.map .kept))))
    | none => c

/-- What happens next in one session of one server. -/
def sessionStepAt? (c : Cell) (i : Nat) (v : Server) (j : Nat) : Option Cell :=
  match v.look? c.cluster j c.now with
  | some (v, k) => some (c.setServer i v k)
  | none =>
    match v.answer? c.cluster j with
    | none => none
    | some (t, r, v) =>
      let c := c.setServer i v c.cluster
      match c.waiters.find? fun w => w.server = i ∧ w.session = j ∧ w.ticket = t with
      | some w => some (c.release w r)
      | none => some c

def sessionStep? (c : Cell) : Option Cell :=
  (List.range c.servers.size).findSome? fun i => do
    let v ← c.servers[i]?
    (List.range v.sessions.size).findSome? fun j => c.sessionStepAt? i v j

/-! ## Clients -/

def clientStep? (c : Cell) : Option Cell :=
  (List.range c.clients.size).findSome? fun i => do
    let s ← c.clients[i]?
    let step ← s.step? c.now
    return c.setClient i step

/-- The session has expired. -/
def isExpired (c : Cell) (client : Nat) : Bool :=
  (c.clients[client]?).any (·.phase = .expired)

/-- Calls that wait for a session to expire. -/
def expiryStep? (c : Cell) : Option Cell :=
  c.calls.findSome? fun p =>
    match p.kind with
    | .expiry i => if c.isExpired i then some (c.finish p.id (.done (.ok ()))) else none
    | _ => none

/-- Programs that wait for an instant, or for their session to expire. -/
def programStep? (c : Cell) : Option Cell :=
  c.programs.findSome? fun p =>
    match p.task with
    | .sleep t => if t ≤ c.now then some (c.moveProgram p (p.program.resume c.now .woke)) else none
    | .awaitExpiry =>
      if p.client.any c.isExpired then
        some (c.moveProgram p (p.program.resume c.now .expired))
      else none
    | _ => none

/-! ## Time -/

/-- One thing that can happen now. -/
def next? (c : Cell) : Option Cell :=
  c.mailStep? <|> c.sessionStep? <|> c.flightStep? <|> c.clientStep? <|> c.expiryStep? <|>
    c.programStep?

def settleN : Nat → Cell → Cell
  | 0, c => c
  | n + 1, c =>
    match c.next? with
    | some c => settleN n c
    | none => c

/-- How many things may happen at one instant. -/
def settleFuel : Nat := 1000000

/-- Lets everything happen that can happen now. -/
def settle (c : Cell) : Cell := settleN settleFuel c

/-- The instants for which something is set. -/
def alarms (c : Cell) : List Nat :=
  (c.servers.toList.flatMap fun v => v.sessions.toList.filterMap (·.alarm?)) ++
  c.flights.filterMap (·.alarm?) ++
  (c.clients.toList.flatMap (·.alarms)) ++
  c.programs.filterMap fun p =>
    match p.task with
    | .sleep t => some t
    | _ => none

/-- The next instant at which something is due. -/
def nextInstant? (c : Cell) : Option Nat :=
  ((c.alarms.filter (c.now < ·)).map Clock.tick).min?

def setClock (c : Cell) (t : Nat) : Cell := { c with now := t }

/-- Goes from alarm to alarm, to `t` at the latest. -/
def runToN : Nat → Nat → Cell → Cell
  | 0, t, c => (c.setClock t).settle
  | n + 1, t, c =>
    match c.nextInstant? with
    | some u => if u ≤ t then runToN n t (c.setClock u).settle else (c.setClock t).settle
    | none => (c.setClock t).settle

/-- Lets a span of whole milliseconds pass; no more instants than milliseconds lie in it. -/
def sleep (c : Cell) (millis : Nat) : Cell := runToN millis (c.now + ms millis) c

end Cell

end LockCell
