import LockCell.Lock.Record

/-
  LockCell.Lock.Slot — how tasks take turns at the record of one path.

  The table links the path to a slot, which has a mutex and, perhaps, a record. A task
  takes up the linked slot, and links a new one if none is (`link`), waits for its mutex
  (`lock`), and looks whether the slot is still the linked one (`check`). If it is not, the
  task gives up the mutex and begins again. If it is, the task has its turn: it changes the
  record as it likes (`write`), unlinks the slot if it leaves it empty (`unlink`), and gives
  up the mutex (`unlock`).

  A slot may be unlinked while others wait for its mutex; they find out at their check.
  A turn that nobody else comes into leaves the record it wrote (`record?_turn`), which is
  how `Locks.inSlot` has it.
-/

namespace LockCell

/-- Where a task stands, with the slot that it has taken up. -/
inductive TurnStage where
  | idle
  | waiting (slot : Nat)
  /-- It has the mutex and has yet to check. -/
  | locked (slot : Nat)
  | working (slot : Nat)
  /-- It has yet to give up the mutex. -/
  | leaving (slot : Nat)
  deriving DecidableEq, Repr

inductive TurnAct where
  | link
  | lock
  | check
  | write (r : Option Record)
  | unlink
  | unlock

/-- The slots of one path and the tasks that work there, both by number. -/
structure Linking where
  linked : Option Nat := none
  made : Nat := 0
  record : Nat → Option Record := fun _ => none
  /-- The task that has a slot's mutex. -/
  holder : Nat → Option Nat := fun _ => none
  stage : Nat → TurnStage := fun _ => .idle

namespace Linking

def upd {α : Type} (f : Nat → α) (i : Nat) (a : α) : Nat → α := fun j => if j = i then a else f j

@[simp] theorem upd_same {α : Type} (f : Nat → α) (i : Nat) (a : α) : upd f i a i = a := by
  simp [upd]

theorem upd_of_ne {α : Type} (f : Nat → α) {i j : Nat} (a : α) (h : j ≠ i) : upd f i a j = f j := by
  simp [upd, h]

def record? (l : Linking) : Option Record := l.linked.bind l.record

def goTo (l : Linking) (t : Nat) (s : TurnStage) : Linking := { l with stage := upd l.stage t s }

/-- What comes of an act of the task `t`, or `none` if it is not the time for it. -/
def step? (l : Linking) (t : Nat) (a : TurnAct) : Option Linking :=
  match a, l.stage t with
  | .link, .idle =>
    match l.linked with
    | some i => some (l.goTo t (.waiting i))
    | none => some { l.goTo t (.waiting l.made) with linked := some l.made, made := l.made + 1 }
  | .lock, .waiting i =>
    if l.holder i = none then some { l.goTo t (.locked i) with holder := upd l.holder i (some t) }
    else none
  | .check, .locked i =>
    some (l.goTo t (if l.linked = some i then .working i else .leaving i))
  | .write r, .working i => some { l with record := upd l.record i r }
  | .unlink, .working i =>
    let empty := (l.record i).isNone && l.linked == some i
    some { l.goTo t (.leaving i) with linked := if empty then none else l.linked }
  | .unlock, .leaving i => some { l.goTo t .idle with holder := upd l.holder i none }
  | _, _ => none

def run? (l : Linking) (acts : List (Nat × TurnAct)) : Option Linking :=
  acts.foldlM (fun l (t, a) => l.step? t a) l

/-- The acts of a task that comes in, leaves the record `r` and goes. -/
def turn (t : Nat) (r : Option Record) : List (Nat × TurnAct) :=
  [.link, .lock, .check, .write r, .unlink, .unlock].map fun a => (t, a)

/-- A turn while nobody has a mutex leads to the record that it leaves, and leaves no mutex
taken. -/
theorem record?_turn {l : Linking} {t : Nat} (r : Option Record) (hl : ∀ i, l.holder i = none)
    (ht : l.stage t = .idle) :
    ∃ m, l.run? (turn t r) = some m ∧ m.record? = r ∧ m.stage t = .idle ∧
      ∀ i, m.holder i = none := by
  cases hk : l.linked <;> cases r <;>
    simp [turn, run?, step?, goTo, record?, ht, hk, hl] <;>
    · intro i
      simp only [upd]
      split <;> simp [hl]

end Linking

end LockCell
