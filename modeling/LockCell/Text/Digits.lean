/-
  LockCell.Text.Digits — decimal numbers.
-/

namespace LockCell.Text

/-- The number that decimal digits spell. -/
def ofDigits (ds : List Char) : Nat := ds.foldl (fun n c => 10 * n + (c.toNat - '0'.toNat)) 0

/-- Numbers of 64 bits are below this. -/
def wordBound : Nat := 0x10000000000000000

/-- Numbers of 32 bits are below this. -/
def halfWordBound : Nat := 0x100000000

end LockCell.Text
