import LockCell.Lock.Table
import LockCell.Session

/-
  LockCell.Session.Locks — what a session does to the lock table, and what it remembers
  of it.

  A session keeps a list of the locks it holds beside the table's own. It is the list
  that says what a session may take or release and what it lets go when it ends; a delete
  goes by the table alone. The end of a session has two parts: it is marked and gives up
  its list (`close`), then each lock on the list is released (`drain`), where a refusal is
  passed over.
-/

namespace LockCell

namespace Session

variable {σ : Type}

/-- Nothing is done for a session that has ended. -/
def whenLive {α : Type} (s : Session) (l : Locks σ)
    (f : Except Error α × Session × Locks σ) : Except Error α × Session × Locks σ :=
  if s.ended then (.error (.sessionExpired s.client), s, l) else f

def openLock (S : Store σ) (s : Session) (l : Locks σ) (p : Path) :
    Except Error Unit × Session × Locks σ :=
  s.whenLive l <|
    let (r, l) := l.openLock S p
    (r, s, l)

def acquire (S : Store σ) (s : Session) (l : Locks σ) (p : Path) (m : Mode) :
    Except Error Bool × Session × Locks σ :=
  s.whenLive l <|
    if p ∈ s.held then (.error (.lock (.alreadyOwned s.client p)), s, l)
    else
      match l.acquire S s.client p m with
      | (.ok true, l) => (.ok true, { s with held := s.held.insert p m }, l)
      | (r, l) => (r, s, l)

def release (S : Store σ) (s : Session) (l : Locks σ) (p : Path) :
    Except Error Unit × Session × Locks σ :=
  s.whenLive l <|
    if p ∈ s.held then
      match l.release S s.client p with
      | (.ok (), l) => (.ok (), { s with held := s.held.erase p }, l)
      | (.error e, l) => (.error e, s, l)
    else (.error (.lock (.notOwned s.client p)), s, l)

def delete (S : Store σ) (s : Session) (l : Locks σ) (p : Path) :
    Except Error Unit × Session × Locks σ :=
  s.whenLive l <|
    match l.delete S s.client p with
    | (.ok (), l) => (.ok (), { s with held := s.held.erase p }, l)
    | (.error e, l) => (.error e, s, l)

/-- The lease starts over, unless the session has ended. -/
def refresh? (s : Session) (now : Nat) : Except Error Session :=
  if s.ended then .error (.sessionExpired s.client) else .ok (s.refresh now)

/-- Marks the end; the list of locks is given up. -/
def close (s : Session) : Session := { s with ended := true, held := ∅ }

/-- Releases locks one by one, whatever becomes of each. -/
def drain (S : Store σ) (c : Client) (l : Locks σ) (ps : List Path) : Locks σ :=
  ps.foldl (fun l p => (l.release S c p).2) l

/-- Ends the session and lets its locks go, in the order of their paths. -/
def terminate (S : Store σ) (s : Session) (l : Locks σ) : Session × Locks σ :=
  if s.ended then (s, l) else (s.close, drain S s.client l s.held.keys)

end Session

end LockCell
