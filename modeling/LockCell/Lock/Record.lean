import LockCell.Error

/-
  LockCell.Lock.Record — who holds one lock, and how.

  A well formed record (`Record.Sound`) is free without owners, exclusive with one, or
  shared with at least one. `check` says of any other record what is wrong with it, and
  `acquire`, `release` are the two ways in which owners come and go; both keep a sound
  record sound.
-/

namespace LockCell

structure Record where
  path : Path
  mode : Mode
  owners : Names
  deriving DecidableEq

namespace Record

def free (p : Path) : Record := ⟨p, .free, ∅⟩

def ownedBy (r : Record) (c : Client) : Bool := r.owners.contains c

/-- The mode fits the number of owners. -/
def Sound (r : Record) : Prop :=
  match r.mode with
  | .free => r.owners.size = 0
  | .exclusive => r.owners.size = 1
  | .shared => 0 < r.owners.size

instance (r : Record) : Decidable r.Sound := by
  unfold Sound
  cases r.mode <;> infer_instance

/-- What is wrong with a record. -/
def flaw? (r : Record) : Option String :=
  let n := r.owners.size
  match r.mode with
  | .free => if 0 < n then some ("FREE but owned by " ++ toString n ++ " client(s)") else none
  | .exclusive =>
    if n = 0 then some "EXCLUSIVE despite having no owners"
    else if 1 < n then some ("EXCLUSIVE but owned by " ++ toString n ++ " clients")
    else none
  | .shared => if n = 0 then some "SHARED despite having no owners" else none

/-- A refusal for a record that contradicts itself. -/
def check (r : Record) : Except LockError Unit :=
  match r.flaw? with
  | some d => .error (.invariant r.path d)
  | none => .ok ()

theorem flaw?_eq_none_iff (r : Record) : r.flaw? = none ↔ r.Sound := by
  obtain ⟨p, m, o⟩ := r
  cases m <;> simp only [flaw?, Sound] <;> grind

/-- The record once `c` holds it too, or `none` while others exclude that. A refusal names the
path that was asked for. -/
def acquire (r : Record) (c : Client) (p : Path) (m : Mode) : Except LockError (Option Record) := do
  r.check
  if r.ownedBy c then
    throw (.alreadyOwned c p)
  match r.mode, m with
  | .free, _ => return some { r with mode := m, owners := r.owners.insert c }
  | .shared, .shared => return some { r with owners := r.owners.insert c }
  | _, _ => return none

/-- The record without `c`; free once nobody is left. -/
def release (r : Record) (c : Client) (p : Path) : Except LockError Record := do
  r.check
  if r.mode = .free then
    throw (.invariant p ("release by " ++ c ++ " reached a FREE lock"))
  if !r.ownedBy c then
    throw (.notOwned c p)
  let owners := r.owners.erase c
  return { r with owners, mode := if owners.isEmpty then .free else r.mode }

end Record

end LockCell
