import LockCell.Error
import LockCell.Log.Command

/-
  LockCell.Store — what a lock table and its sessions need of a store: to read a key and
  to apply a command. Both can fail, and a failure leaves the store as it was: the new
  store comes with success only.
-/

namespace LockCell

/-- A store whose state is a `σ`. -/
structure Store (σ : Type) where
  get : σ → String → Except Error (Option Bytes)
  apply : σ → Command → Except Error σ

namespace Store

variable {σ : Type}

/-- The key is there. -/
def has (S : Store σ) (s : σ) (k : String) : Except Error Bool :=
  (S.get s k).map (·.isSome)

def set (S : Store σ) (s : σ) (k : String) (v : Bytes) : Except Error σ :=
  S.apply s (.set k v)

def delete (S : Store σ) (s : σ) (k : String) : Except Error σ :=
  S.apply s (.delete k)

end Store

end LockCell
