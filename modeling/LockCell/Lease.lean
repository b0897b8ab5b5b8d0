import LockCell.Clock
import LockCell.Names

/-
  LockCell.Lease — the timing that servers and clients agree on, and what a client is
  started with. `length`, `extension` and `jeopardy` must be the same on both sides; the
  rest only says how often each side looks.
-/

namespace LockCell

/-- Spans in nanoseconds. -/
structure LeaseConfig where
  length : Nat
  /-- What one keep-alive adds to the lease. -/
  extension : Nat
  /-- How long a client whose lease ran out looks for a master before it gives up. -/
  jeopardy : Nat
  /-- The longest that a server sleeps between two looks at a session. -/
  tick : Nat
  /-- How long before the end of a lease its keep-alive is let through. -/
  warning : Nat
  /-- How long a client waits between two attempts. -/
  probe : Nat
  deriving DecidableEq, Repr

namespace LeaseConfig

def default : LeaseConfig :=
  ⟨secs 12, secs 12, secs 45, secs 1, secs 1, ms 250⟩

def fast : LeaseConfig :=
  ⟨ms 1000, ms 1000, ms 3000, ms 50, ms 300, ms 50⟩

end LeaseConfig

instance : Inhabited LeaseConfig := ⟨.default⟩

/-- The servers that a client asks unless it is told others. -/
def defaultServers : List Addr :=
  ["127.0.0.1:5379", "127.0.0.1:6379", "127.0.0.1:7379", "127.0.0.1:8379", "127.0.0.1:9379"]

structure ClientConfig where
  client : Client
  /-- Where to look for the master, in this order. -/
  servers : List Addr := defaultServers
  lease : LeaseConfig := .default
  deriving DecidableEq, Repr

end LockCell
