import LockCell.Lease
import LockCell.Mode

/-
  LockCell.Session — a client's lease at a server.

  A session runs until its deadline, `start + lease`. Three parties move it.
  - Its watch (`look`) sleeps until the warning before the deadline, in naps of one tick
    at most, and looks again at once when the deadline has moved. At the warning it lets
    one renewal through; at the deadline it ends the session.
  - Keep-alives arrive with a ticket and park (`arrive`). The newest one takes the
    renewal when there is one: the lease grows by the extension, once per warning. An
    older one is answered with the lease as it is when a newer one arrives, and every
    one is told when the session ends (`answer?`).
  - A refresh starts the lease over, and withdraws a renewal that nobody took.

  Nothing moves a session once it has ended.
-/

namespace LockCell

/-- What a keep-alive is told: how long the lease runs from its start, or that the
session is over. -/
structure KeepAlive where
  lease : Nat
  expired : Bool
  deriving DecidableEq, Repr

structure Session where
  client : Client
  config : LeaseConfig
  start : Nat
  lease : Nat
  held : Dict Mode := ∅
  ended : Bool := false
  /-- How many keep-alives have come; also the newest one's ticket. -/
  arrived : Nat := 0
  /-- The tickets of those that have not been answered, the oldest first. -/
  parked : List Nat := []
  /-- The next keep-alive may extend the lease. -/
  renewal : Bool := false
  /-- The deadline that has been warned of. -/
  warned : Option Nat := none
  /-- The deadline has moved since the watch last looked. -/
  moved : Bool := false
  wake : Nat := start

namespace Session

def begin (client : Client) (config : LeaseConfig) (now : Nat) : Session :=
  { client, config, start := now, lease := config.length, moved := true }

def live (s : Session) : Bool := !s.ended

def deadline (s : Session) : Nat := s.start + s.lease

/-- When the watch should look again: at the warning, or at the deadline if it has been
warned of, and after one tick at the latest. -/
def nextLook (s : Session) (now : Nat) : Nat :=
  let target :=
    if s.warned = some s.deadline then s.deadline else s.deadline - s.config.warning
  min target (now + s.config.tick)

inductive Look where
  | asleep
  | awake (s : Session)
  | over

def aim (s : Session) (now : Nat) : Session := { s with moved := false, wake := s.nextLook now }

def warn (s : Session) : Session := { s with renewal := true, warned := some s.deadline }

def warnable (s : Session) (now : Nat) : Bool :=
  s.deadline - now ≤ s.config.warning && s.warned != some s.deadline

/-- The watch at an instant. A look that changes nothing counts as sleep. -/
def look (s : Session) (now : Nat) : Look :=
  if s.ended then .asleep
  else if s.moved then .awake (s.aim now)
  else if now < s.wake then .asleep
  else if s.deadline ≤ now then .over
  else if s.warnable now then .awake (s.warn.aim now)
  else if s.nextLook now = s.wake then .asleep
  else .awake (s.aim now)

def alarm? (s : Session) : Option Nat := if s.ended then none else some s.wake

/-! ## Keep-alives -/

/-- A keep-alive comes; `arrived` is its ticket from then on. -/
def arrive (s : Session) : Session :=
  { s with arrived := s.arrived + 1, parked := s.parked ++ [s.arrived + 1] }

/-- The caller of a parked keep-alive has gone. -/
def abandon (s : Session) (ticket : Nat) : Session :=
  { s with parked := s.parked.erase ticket }

def extend (s : Session) : Session :=
  { s with renewal := false, lease := s.lease + s.config.extension, moved := true }

/-- Whether the holder of a ticket can be answered, and how. -/
def settled? (s : Session) (ticket : Nat) : Option (KeepAlive × Session) :=
  if s.ended then some (⟨s.lease, true⟩, s)
  else if ticket ≠ s.arrived then some (⟨s.lease, false⟩, s)
  else if s.renewal then some (⟨s.extend.lease, false⟩, s.extend)
  else none

/-- The first parked keep-alive that can be answered: its ticket, the answer, and the
session after it. -/
def answer? (s : Session) : Option (Nat × KeepAlive × Session) :=
  s.parked.findSome? fun t => (s.settled? t).map fun (k, s) => (t, k, s.abandon t)

def refresh (s : Session) (now : Nat) : Session :=
  { s with start := now, lease := s.config.length, renewal := false, moved := true }

end Session

end LockCell
