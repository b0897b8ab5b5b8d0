/-
  LockCell.Clock — instants and spans, counted in nanoseconds since the cell was started.
  The clock itself stands on whole milliseconds only, so a timer set for an instant
  between two of them fires at the second (`Clock.tick`).
-/

namespace LockCell

namespace Clock

/-- Nanoseconds in a millisecond. -/
def milli : Nat := 1000000

/-- Nanoseconds in a second. -/
def second : Nat := 1000000000

/-- Whole milliseconds, the rest dropped. -/
def toMs (t : Nat) : Nat := t / milli

/-- The first whole millisecond at or after `t`. -/
def tick (t : Nat) : Nat := (t + (milli - 1)) / milli * milli

end Clock

/-- A span of `n` milliseconds. -/
def ms (n : Nat) : Nat := n * Clock.milli

/-- A span of `n` seconds. -/
def secs (n : Nat) : Nat := n * Clock.second

namespace Clock

theorem le_tick (t : Nat) : t ≤ tick t := by
  simp only [tick, milli]
  omega

/-- On whole milliseconds a timer is due exactly when its instant has come. -/
theorem tick_le_iff (t n : Nat) : tick t ≤ ms n ↔ t ≤ ms n := by
  simp only [tick, ms, milli]
  omega

theorem toMs_ms (n : Nat) : toMs (ms n) = n := by
  simp only [toMs, ms, milli]
  omega

end Clock

end LockCell
