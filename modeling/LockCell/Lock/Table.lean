import LockCell.Lock.Record
import LockCell.Store

/-
  LockCell.Lock.Table — the locks of one server: a volatile table over a durable store.

  A lock exists if its path is a key of the store. The table says who holds it; a lock
  without an entry is free, and gets one when it is first taken. An operation works in
  its path's slot, which is made for it if need be and is taken out again if it is left
  empty (`inSlot`), so between operations every slot holds a record.

  An operation that fails leaves table and store as they were.
-/

namespace LockCell

/-- The table: a record for each path, or an empty slot. -/
abbrev Slots := Dict (Option Record)

namespace Slots

/-- What the table says of a path. -/
def record? (t : Slots) (p : Path) : Option Record := (t[p]?).join

/-- Leaves `r` in the path's slot; an empty slot is taken out. -/
def put (t : Slots) (p : Path) : Option Record → Slots
  | none => t.erase p
  | some r => t.insert p (some r)

/-- The records, in the order of their paths. -/
def records (t : Slots) : List Record := t.values.filterMap id

end Slots

/-- A lock table over a store. -/
structure Locks (σ : Type) where
  slots : Slots
  store : σ

namespace Locks

variable {σ : Type}

/-- Works in a path's slot: `f` is given the record there and leaves another, or none. -/
def inSlot {α : Type} (l : Locks σ) (p : Path)
    (f : Option Record → Except Error α × Option Record × σ) : Except Error α × Locks σ :=
  match f (l.slots.record? p) with
  | (a, r, s) => (a, ⟨l.slots.put p r, s⟩)

/-- Makes the lock, free, unless it exists. -/
def openLock (S : Store σ) (l : Locks σ) (p : Path) : Except Error Unit × Locks σ :=
  l.inSlot p fun r =>
    match S.has l.store p with
    | .error e => (.error e, r, l.store)
    | .ok true => (.ok (), r, l.store)
    | .ok false =>
      match S.set l.store p [] with
      | .error e => (.error e, r, l.store)
      | .ok s => (.ok (), some (.free p), s)

/-- Takes the lock for `c`; `false` while others hold it in a way that excludes `m`. -/
def acquire (S : Store σ) (l : Locks σ) (c : Client) (p : Path) (m : Mode) :
    Except Error Bool × Locks σ :=
  if m.requestable then
    l.inSlot p fun r =>
      match S.has l.store p with
      | .error e => (.error e, r, l.store)
      | .ok false => (.error (.lock (.notOpened p)), r, l.store)
      | .ok true =>
        let here := r.getD (.free p)
        match here.acquire c p m with
        | .error e => (.error (.lock e), some here, l.store)
        | .ok none => (.ok false, some here, l.store)
        | .ok (some taken) => (.ok true, some taken, l.store)
  else (.error (.lock (.invalidMode m)), l)

/-- Lets go of the lock for `c`. -/
def release (S : Store σ) (l : Locks σ) (c : Client) (p : Path) : Except Error Unit × Locks σ :=
  l.inSlot p fun r =>
    match S.has l.store p with
    | .error e => (.error e, r, l.store)
    | .ok false => (.error (.lock (.notOpened p)), r, l.store)
    | .ok true =>
      match r with
      | none => (.error (.lock (.notOwned c p)), none, l.store)
      | some here =>
        match here.release c p with
        | .error e => (.error (.lock e), some here, l.store)
        | .ok left => (.ok (), some left, l.store)

/-- Does away with a lock that `c` alone holds. -/
def delete (S : Store σ) (l : Locks σ) (c : Client) (p : Path) : Except Error Unit × Locks σ :=
  l.inSlot p fun r =>
    let refuse (e : Error) := (.error e, r, l.store)
    match r.filter (·.ownedBy c) with
    | none => refuse (.lock (.notOwned c p))
    | some here =>
      if here.mode = .exclusive then
        match S.has l.store p with
        | .error e => refuse e
        | .ok false => refuse (.lock (.notOpened p))
        | .ok true =>
          match S.delete l.store p with
          | .error e => refuse e
          | .ok s => (.ok (), none, s)
      else refuse (.lock (.notExclusive c p))

end Locks

end LockCell
