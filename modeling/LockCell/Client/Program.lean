import LockCell.Client.Session

/-
  LockCell.Client.Program — the client program's five commands.

  `hold` keeps a session until it expires. `acquire` tries for a lock until it is granted
  and then keeps it. `churn` takes and releases shared locks one after another for ever,
  with a new session whenever the old one has expired. `elect` takes a lock, leads for a
  while and steps down; if somebody else leads it leaves at once. `status` asks every
  server for its status document and shows those that come.

  A program does one thing at a time (`Task`), and is told what came of it (`Event`). It
  is never interrupted.
-/

namespace LockCell

inductive ProgramCommand where
  | hold
  | acquire (path : Path)
  | churn (locks : Nat)
  | elect (path : Path) (holdSecs : Nat)
  | status
  deriving DecidableEq, Repr

inductive Stage where
  | connecting
  /-- It waits for its session to expire. -/
  | holding
  /-- These locks are left to open, the first of them is being opened. -/
  | opening (rest : List Path)
  /-- The first of these locks is being tried. -/
  | trying (rest : List Path)
  /-- The first of these locks is being released. -/
  | releasing (rest : List Path)
  /-- It waits before it tries again. -/
  | pausing
  | leading
  /-- It waits for the old session to be gone. -/
  | cooling
  /-- The first of these servers is being asked. -/
  | asking (rest : List Addr)
  | resting
  deriving DecidableEq, Repr

/-- What a program does now. -/
inductive Task where
  | connect
  | call (op : LockOp)
  | sleep (till : Nat)
  | awaitExpiry
  | askStatus (addr : Addr)
  /-- It does nothing more and never ends. -/
  | stay
  /-- It ends; `closing` says that it closes its session first. -/
  | finish (closing : Bool) (r : Except Error Unit)

inductive Event where
  | connected (r : Except Error Unit)
  | answered (r : Except Error Response)
  | woke
  | expired
  | statusRead

structure Program where
  config : ClientConfig
  command : ProgramCommand
  stage : Stage

namespace Program

/-- How long `acquire` waits between two tries. -/
def pollSpan : Nat := ms 100

def paths (g : Program) : List Path :=
  match g.command with
  | .acquire p | .elect p _ => [p]
  | .churn n => (List.range n).map fun i => "lock_" ++ toString i ++ "_" ++ g.config.client
  | .hold | .status => []

abbrev Move := Program × Task

def leave (g : Program) (closing : Bool) (r : Except Error Unit) : Move :=
  ({ g with stage := .resting }, .finish closing r)

def connect (g : Program) : Move := ({ g with stage := .connecting }, .connect)

def stay (g : Program) : Move := ({ g with stage := .resting }, .stay)

/-- Goes on with the first of some locks; after the last one churning starts over. -/
def attempt (g : Program) : List Path → Move
  | p :: rest =>
    let mode := match g.command with
      | .churn _ => .shared
      | _ => .exclusive
    ({ g with stage := .trying (p :: rest) }, .call (.acquireLock p mode))
  | [] => g.stay

/-- Goes on after the first of some locks. -/
def tryNext (g : Program) (rest : List Path) : Move :=
  if rest.isEmpty then g.attempt g.paths else g.attempt rest

def openNext (g : Program) : List Path → Move
  | p :: rest => ({ g with stage := .opening (p :: rest) }, .call (.openLock p))
  | [] => g.attempt g.paths

def ask (g : Program) : List Addr → Move
  | a :: rest => ({ g with stage := .asking (a :: rest) }, .askStatus a)
  | [] => g.leave false (.ok ())

/-- A lock call has failed: churning goes on with a new session if the old one is over. -/
def failed (g : Program) (e : Error) (now : Nat) : Move :=
  match g.command with
  | .churn _ =>
    if e.isSessionExpired then
      ({ g with stage := .cooling }, .sleep (now + g.config.lease.length))
    else g.leave false (.error e)
  | _ => g.leave false (.error e)

def start (config : ClientConfig) (command : ProgramCommand) : Move :=
  let g : Program := ⟨config, command, .connecting⟩
  match command with
  | .status => g.ask config.servers
  | _ => g.connect

def connected (g : Program) : Move :=
  match g.command with
  | .hold => ({ g with stage := .holding }, .awaitExpiry)
  | _ => g.openNext g.paths

def tried (g : Program) (granted : Bool) (rest : List Path) (now : Nat) : Move :=
  match g.command, rest with
  | .acquire _, _ =>
    if granted then g.stay else ({ g with stage := .pausing }, .sleep (now + pollSpan))
  | .elect _ n, _ =>
    if granted then ({ g with stage := .leading }, .sleep (now + secs n))
    else g.leave true (.ok ())
  | .churn _, p :: rest =>
    if granted then ({ g with stage := .releasing (p :: rest) }, .call (.releaseLock p))
    else g.tryNext rest
  | _, _ => g.stay

def released (g : Program) (rest : List Path) : Move :=
  match g.command with
  | .churn _ => g.tryNext rest.tail
  | _ => g.leave true (.ok ())

def resume (g : Program) (now : Nat) : Event → Move
  | .connected (.error e) => g.leave false (.error e)
  | .connected (.ok ()) => g.connected
  | .expired => g.leave false (.ok ())
  | .woke =>
    match g.stage with
    | .cooling => g.connect
    | .leading =>
      match g.paths with
      | p :: rest => ({ g with stage := .releasing (p :: rest) }, .call (.releaseLock p))
      | [] => g.stay
    | _ => g.attempt g.paths
  | .statusRead =>
    match g.stage with
    | .asking rest => g.ask rest.tail
    | _ => g.stay
  | .answered r =>
    match g.stage, r with
    | .opening _, .error e => g.leave false (.error e)
    | .opening rest, .ok _ => g.openNext rest.tail
    | .trying rest, .ok (.acquired b) => g.tried b rest now
    | .releasing rest, .ok _ => g.released rest
    | _, .error e => g.failed e now
    | _, .ok _ => g.stay

end Program

end LockCell
