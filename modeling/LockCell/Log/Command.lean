import LockCell.Names

/-
  LockCell.Log.Command — what the log of a cell consists of, and its bytes.

  A command sets or deletes a key; the contents of a store are its commands applied in
  order (`Contents.ofCommands`). In a file a command is a tag (0 for set, 1 for delete,
  four bytes), the key, and for a set the value; texts and values are preceded by their
  length in eight bytes. All numbers are little-endian.
-/

namespace LockCell

inductive Command where
  | set (key : String) (value : Bytes)
  | delete (key : String)
  deriving DecidableEq, Repr

/-- What a store holds. -/
abbrev Contents := Dict Bytes

namespace Contents

def run (d : Contents) : Command → Contents
  | .set k v => d.insert k v
  | .delete k => d.erase k

def ofCommands (cs : List Command) : Contents := cs.foldl run ∅

end Contents

/-- `n` in `k` bytes, the lowest first; what does not fit is lost. -/
def littleEndian : Nat → Nat → Bytes
  | 0, _ => []
  | k + 1, n => UInt8.ofNat n :: littleEndian k (n / 256)

/-- The number that bytes spell, the lowest first. -/
def ofLittleEndian : Bytes → Nat
  | [] => 0
  | b :: r => b.toNat + 256 * ofLittleEndian r

theorem length_littleEndian (k n : Nat) : (littleEndian k n).length = k := by
  induction k generalizing n with
  | zero => rfl
  | succ k ih => simp [littleEndian, ih]

/-- The UTF-8 bytes of a text. -/
def utf8 (s : String) : Bytes := s.toByteArray.data.toList

/-- The text of UTF-8 bytes. -/
def ofUtf8? (bs : Bytes) : Option String := String.fromUTF8? ⟨bs.toArray⟩

theorem ofUtf8?_utf8 (s : String) : ofUtf8? (utf8 s) = some s := by
  simp [ofUtf8?, utf8, String.fromUTF8?, s.isValidUTF8]
  rfl

/-- Bytes preceded by their number. -/
def block (bs : Bytes) : Bytes := littleEndian 8 bs.length ++ bs

namespace Command

def encode : Command → Bytes
  | set k v => littleEndian 4 0 ++ block (utf8 k) ++ block v
  | delete k => littleEndian 4 1 ++ block (utf8 k)

end Command

end LockCell
