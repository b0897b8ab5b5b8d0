import LockCell.Cell.Run

/-
  LockCell.Cell.Act — what can be done to a cell from outside, and what it answers.

  A step either answers at once, or begins a call that is reported when it is over. After
  each step the cell settles; time passes only in `sleep`.
-/

namespace LockCell

/-- What is done with a node's store. -/
inductive StoreStep where
  | set (key : String) (value : Bytes)
  | delete (key : String)
  | get (key : String)
  | join (node : Node) (addr : Addr)
  | leads
  | leader

/-- What is done with a node's lock table. -/
inductive TableStep where
  | openLock (path : Path)
  | acquire (client : Client) (path : Path) (mode : Mode)
  | release (client : Client) (path : Path)
  | delete (client : Client) (path : Path)
  | record (path : Path)

/-- What is done with a node's sessions; one that is found gets a handle. -/
inductive ManagerStep where
  | create (client : Client) (handle : String)
  | live (client : Client) (handle : String)
  | find (client : Client) (handle : String)
  | terminate (client : Client)

/-- What is done with a session. -/
inductive SessionStep where
  | openLock (path : Path)
  | acquire (path : Path) (mode : Mode)
  | release (path : Path)
  | delete (path : Path)
  | refresh
  | terminate
  | info

/-- What begins a call. -/
inductive CallStep where
  /-- A keep-alive at a node's sessions. -/
  | managerKeepAlive (node : Node) (client : Client) (claimed : Option (Dict Mode))
  | sessionKeepAlive (handle : String)
  /-- An HTTP request at a node's router. -/
  | http (node : Node) (m : Http.Message)
  /-- A request over the network, or one for the status document. -/
  | rpc (addr : Addr) (q : Option Request)
  /-- A client looks for a server; all nodes are asked unless it is told whom to ask. -/
  | connect (name : String) (client : Client) (servers : Option (List Addr)) (lease : LeaseConfig)
  | lock (name : String) (op : LockOp)
  | awaitExpiry (name : String)
  | program (args : List String)

inductive CellStep where
  | sleep (millis : Nat)
  | abort (tag : String)
  | call (tag : String) (s : CallStep)
  | elect (node : Node)
  | stepDown
  | follow (addr : Addr)
  | addNode (node : Node) (addr listen : Addr)
  | cluster
  | store (node : Node) (s : StoreStep)
  | table (node : Node) (s : TableStep)
  | manager (node : Node) (s : ManagerStep)
  | session (handle : String) (s : SessionStep)
  | latency (millis : Nat)
  | down (node : Node)
  | up (node : Node)
  | crash (node : Node)
  | restart (node : Node)
  | requests
  | trap (t : Trap)
  | clearTraps
  | close (name : String)
  | printed

/-- An answer at once. -/
inductive Answer where
  | done (r : Except Error Unit)
  | flag (r : Except Error Bool)
  | count (n : Nat)
  | bytes (r : Except Error (Option Bytes))
  | addr (a : Option Addr)
  | record (r : Option Record)
  /-- A session was found, or none. -/
  | session (r : Except Error Bool)
  | span (r : Except Error Nat)
  | info (s : Session)
  | cluster (k : Cluster)
  | printed (l : List Status)
  /-- Nothing was done, for this reason. -/
  | skipped (reason : String)
  /-- The step names a node or a handle that is not there. -/
  | unknown

namespace Cell

abbrev Acted := Option Answer × Cell

def reply (a : Answer) (c : Cell) : Acted := (some a, c)

/-! ## One node -/

def actStore (c : Cell) (n : Node) : StoreStep → Acted
  | .set key value => write ((Cluster.storeOf n).set c.cluster key value)
  | .delete key => write ((Cluster.storeOf n).delete c.cluster key)
  | .join m a => write (c.cluster.join n m a)
  | .get key => c.reply (.bytes ((Cluster.storeOf n).get c.cluster key))
  | .leads => c.reply (.flag (.ok (c.cluster.leads n)))
  | .leader => c.reply (.addr c.cluster.leaderAddr?)
where
  write : Except Error Cluster → Acted
    | .error e => c.reply (.done (.error e))
    | .ok k => { c with cluster := k }.reply (.done (.ok ()))

def actTable (c : Cell) (i : Nat) (v : Server) (s : TableStep) : Acted :=
  let l := v.locks c.cluster
  let keep {α : Type} (answer : Except Error α → Answer) (r : Except Error α × Locks Cluster) :=
    (c.setServer i { v with slots := r.2.slots } r.2.store).reply (answer r.1)
  match s with
  | .openLock p => keep .done (l.openLock v.store p)
  | .acquire x p m => keep .flag (l.acquire v.store x p m)
  | .release x p => keep .done (l.release v.store x p)
  | .delete x p => keep .done (l.delete v.store x p)
  | .record p => c.reply (.record (v.slots.record? p))

def actManager (c : Cell) (i : Nat) (v : Server) : ManagerStep → Acted
  | .create x h =>
    match v.create x c.now with
    | .error e => c.reply (.session (.error e))
    | .ok (j, v) => hold (c.setServer i v c.cluster) h j
  | .live x h =>
    match v.liveSession x with
    | .error e => c.reply (.session (.error e))
    | .ok (j, _) => hold c h j
  | .find x h =>
    match v.session? x with
    | none => c.reply (.session (.ok false))
    | some (j, _) => hold c h j
  | .terminate x =>
    match v.terminateClient c.cluster x with
    | (r, v, k) => (c.setServer i v k).reply (.done r)
where
  hold (c : Cell) (h : String) (j : Nat) : Acted :=
    { c with handles := c.handles.insert h (i, j) }.reply (.session (.ok true))

def actSession (c : Cell) (i j : Nat) (v : Server) (s : Session) (step : SessionStep) : Acted :=
  let l := v.locks c.cluster
  let keep {α : Type} (answer : Except Error α → Answer)
      (r : Except Error α × Session × Locks Cluster) :=
    let v := { v.setSession j r.2.1 with slots := r.2.2.slots }
    (c.setServer i v r.2.2.store).reply (answer r.1)
  match step with
  | .openLock p => keep .done (s.openLock v.store l p)
  | .acquire p m => keep .flag (s.acquire v.store l p m)
  | .release p => keep .done (s.release v.store l p)
  | .delete p => keep .done (s.delete v.store l p)
  | .refresh =>
    match s.refresh? c.now with
    | .error e => c.reply (.span (.error e))
    | .ok s => (c.setServer i (v.setSession j s) c.cluster).reply (.span (.ok s.lease))
  | .terminate =>
    match v.terminate c.cluster j with
    | (v, k) => (c.setServer i v k).reply (.done (.ok ()))
  | .info => c.reply (.info s)

/-! ## The network -/

/-- Requests that have come to an address end; their servers stop working on them. One that
is held up on its way has not come yet. -/
def hangUp (c : Cell) (a : Addr) : Cell :=
  (c.flights.filter fun f => f.addr = a ∧ atPeer f.place).foldl (fun c f => c.deliver f .closed) c
where
  atPeer : Whereabouts → Bool
    | .travelling _ | .delayed _ => false
    | .hanging | .parked => true

def setUp (c : Cell) (a : Addr) (up : Bool) : Cell :=
  match c.hosts[a]? with
  | some h => { c with hosts := c.hosts.insert a { h with up } }
  | none => c

def down (c : Cell) (a : Addr) : Cell := (c.setUp a false).hangUp a

/-- The node gets a new server, with nothing in it. -/
def restart (c : Cell) (n : Node) (seat : Seat) : Cell :=
  let c := c.hangUp seat.addr
  { c with
    servers := c.servers.push { node := n, listen := seat.listen, lease := c.lease }
    seats := c.seats.insert n { seat with server := c.servers.size }
    hosts := c.hosts.insert seat.addr ⟨c.servers.size, true⟩ }

/-! ## Calls -/

/-- The keep-alive of a caller that the network does not know. -/
def park (c : Cell) (i : Nat) (h : Handled KeepAlive) (holder : Holder) (id : Nat)
    (result : Except Error KeepAlive → Result) : Cell :=
  match h with
  | .done r => c.finish id (result r)
  | .parked j t => { c with waiters := c.waiters ++ [⟨i, j, t, holder⟩] }

def beginHttp (c : Cell) (id i : Nat) (v : Server) (m : Http.Message) : Cell :=
  match Http.read m with
  | .error code => c.finish id (.http code .empty)
  | .ok (.status withBody) =>
    c.finish id (.http 200 (if withBody then .status (v.status c.cluster) else .empty))
  | .ok (.call q) =>
    match v.serve c.cluster c.now q with
    | (.done r, v, k) =>
      (c.setServer i v k).finish id (.http 200 (.reply q.call (toReply r)))
    | (.parked j t, v, k) =>
      let c := c.setServer i v k
      { c with waiters := c.waiters ++ [⟨i, j, t, .http id⟩] }

/-- A lock call is pending under that name. -/
def busy (c : Cell) (name : String) : Bool :=
  c.calls.any fun p =>
    match p.kind with
    | .lock n _ => n = name
    | _ => false

def client? (c : Cell) (name : String) : Option (Nat × ClientSession) := do
  let k ← c.names[name]?
  let s ← c.clients[k]?
  return (k, s)

def noClient : Answer := .skipped "no such client"

def beginProgram (c : Cell) (tag : String) (args : List String) : Cell :=
  let (id, c) := c.beginCall tag .program
  match ClientOptions.parse args ∅ with
  | .error e => c.finish id (.usage e)
  | .ok o =>
    let (program, task) := Program.start o.config o.command
    let p : ProgramRun := { id, program, task }
    let c := { c with programs := c.programs ++ [p] }
    c.perform p

def actCall (c : Cell) (tag : String) : CallStep → Acted
  | .managerKeepAlive n x claimed =>
    match c.serverOf? n with
    | none => c.reply .unknown
    | some (i, v) =>
      let (id, c) := c.beginCall tag .direct
      match v.keepAlive c.cluster x claimed c.now with
      | (h, v, k) =>
        (none, (c.setServer i v k).park i h (.direct id) id fun r => .response (r.map .kept))
  | .sessionKeepAlive handle =>
    match c.handles[handle]? with
    | none => c.reply .unknown
    | some (i, j) =>
      match c.servers[i]? with
      | none => c.reply .unknown
      | some v =>
        let (id, c) := c.beginCall tag .direct
        match v.park j with
        | (h, v) =>
          (none, (c.setServer i v c.cluster).park i h (.direct id) id
            fun r => .response (r.map .kept))
  | .http n m =>
    match c.serverOf? n with
    | none => c.reply .unknown
    | some (i, v) =>
      let (id, c) := c.beginCall tag .http
      (none, c.beginHttp id i v m)
  | .rpc addr q =>
    let (id, c) := c.beginCall tag .rpc
    (none, c.send (.call id) addr q)
  | .connect name client servers lease =>
    let (id, c) := c.beginCall tag .search
    let servers := servers.getD (c.seats.values.map (·.addr))
    (none, c.searchOn id (some name) (Search.begin ⟨client, servers, lease⟩ c.now))
  | .lock name op =>
    match c.client? name with
    | none => c.reply noClient
    | some (k, s) =>
      if c.busy name then c.reply (.skipped "busy")
      else
        let (id, c) := c.beginCall tag (.lock name k)
        (none, c.setClient k (s.call id op))
  | .awaitExpiry name =>
    match c.client? name with
    | none => c.reply noClient
    | some (k, _) => (none, (c.beginCall tag (.expiry k)).2)
  | .program args => (none, c.beginProgram tag args)

/-- A lock call has lost its caller. -/
def abandonLock (c : Cell) (client id : Nat) : Cell :=
  match c.clients[client]? with
  | some s => c.setClient client (s.abandon id)
  | none => c

/-- The caller of a pending call has gone. -/
def abandon (c : Cell) (p : PendingCall) : Cell :=
  let c := { c with calls := c.calls.filter (·.id ≠ p.id) }
  match p.kind with
  | .http => c.dropWaiter (.http p.id)
  | .direct => c.dropWaiter (.direct p.id)
  | .rpc => c.cancel (.call p.id)
  | .search => (c.dropSearch p.id).cancel (.search p.id)
  | .lock _ k => c.abandonLock k p.id
  | .expiry _ => c
  | .program =>
    let c := match (c.programs.find? (·.id = p.id)).bind (·.client) with
      | some k => c.abandonLock k p.id
      | none => c
    let c := ((c.dropSearch p.id).cancel (.search p.id)).cancel (.program p.id)
    { c with programs := c.programs.filter (·.id ≠ p.id) }

def abort (c : Cell) (tag : String) : Acted :=
  match c.tags[tag]? with
  | none => c.reply (.skipped "no such call")
  | some id =>
    let c := { c with tags := c.tags.erase tag }
    match c.calls.find? (·.id = id) with
    | none => c.reply (.flag (.ok false))
    | some p => (c.abandon p).reply (.flag (.ok true))

/-! ## Steps -/

/-- Does something to the present server of a node. -/
def onServer (c : Cell) (n : Node) (f : Nat → Server → Acted) : Acted :=
  match c.serverOf? n with
  | none => c.reply .unknown
  | some (i, v) => f i v

/-- Does something to a node's place. -/
def onSeat (c : Cell) (n : Node) (f : Seat → Cell) : Acted :=
  match c.seats[n]? with
  | none => c.reply .unknown
  | some seat => (f seat).reply (.done (.ok ()))

def act (c : Cell) : CellStep → Acted
  | .sleep n => (none, c.sleep n)
  | .abort tag => c.abort tag
  | .call tag s => c.actCall tag s
  | .elect n => { c with cluster := c.cluster.elect n }.reply (.done (.ok ()))
  | .stepDown => { c with cluster := c.cluster.stepDown }.reply (.done (.ok ()))
  | .follow a => { c with cluster := c.cluster.follow a }.reply (.done (.ok ()))
  | .addNode n a l => (c.addNode n a l).reply (.done (.ok ()))
  | .cluster => c.reply (.cluster c.cluster)
  | .store n s => c.onServer n fun _ _ => c.actStore n s
  | .table n s => c.onServer n fun i v => c.actTable i v s
  | .manager n s => c.onServer n fun i v => c.actManager i v s
  | .session h s =>
    match c.handles[h]? with
    | none => c.reply .unknown
    | some (i, j) =>
      match c.servers[i]? with
      | none => c.reply .unknown
      | some v =>
        match v.sessions[j]? with
        | none => c.reply .unknown
        | some x => c.actSession i j v x s
  | .latency n => { c with latency := ms n }.reply (.done (.ok ()))
  | .down n => c.onSeat n fun seat => c.down seat.addr
  | .up n => c.onSeat n fun seat => c.setUp seat.addr true
  | .crash n =>
    c.onSeat n fun seat =>
      let c := if c.cluster.leads n then { c with cluster := c.cluster.stepDown } else c
      c.down seat.addr
  | .restart n => c.onSeat n fun seat => c.restart n seat
  | .requests => { c with requests := 0 }.reply (.count c.requests)
  | .trap t => { c with traps := c.traps ++ [t] }.reply (.done (.ok ()))
  | .clearTraps => { c with traps := [] }.reply (.done (.ok ()))
  | .close name =>
    match c.client? name with
    | none => c.reply noClient
    | some (k, s) => (c.setClient k (s.close, [])).reply (.done (.ok ()))
  | .printed => { c with printed := [] }.reply (.printed c.printed)

/-- A step, and all that follows from it at once. -/
def step (c : Cell) (s : CellStep) : Acted :=
  match c.act s with
  | (a, c) => (a, c.settle)

/-- Earlier reports first, and those of one instant in the order of their tags. -/
def earlier (a b : Finished) : Bool :=
  a.time < b.time || (a.time == b.time && compare a.tag b.tag != .gt)

/-- The calls that are over since this was last asked. -/
def report (c : Cell) : List Finished × Cell :=
  (c.finished.mergeSort earlier, { c with finished := [] })

end Cell

end LockCell
