/-
  LockCell.Mode — how a lock is held. A lock that nobody holds is `free`; a client asks
  for one of the other two.
-/

namespace LockCell

inductive Mode where
  | exclusive
  | shared
  | free
  deriving DecidableEq, Repr, Inhabited

namespace Mode

def name : Mode → String
  | .exclusive => "EXCLUSIVE"
  | .shared => "SHARED"
  | .free => "FREE"

def all : List Mode := [.exclusive, .shared, .free]

/-- The mode of that name, in capitals only. -/
def ofName? (s : String) : Option Mode := all.find? (·.name == s)

/-- A client may ask for it. -/
def requestable (m : Mode) : Bool := m != .free

theorem ofName?_name (m : Mode) : ofName? m.name = some m := by cases m <;> decide

end Mode

end LockCell
