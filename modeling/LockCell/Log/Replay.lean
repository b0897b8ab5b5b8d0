import LockCell.Error
import LockCell.Log.Command

/-
  LockCell.Log.Replay — a log read back from its file.

  Entries are read one after another (`Entry.read`). Bytes that end inside an entry end
  the replay: they are what is left of an append that was cut short. An unknown tag, or
  a key that is all there and is no UTF-8, makes the file unreadable.
-/

namespace LockCell

/-- What comes of reading at the head of some bytes. -/
inductive Parse (α : Type) where
  | value (a : α) (rest : Bytes)
  /-- The bytes end too early. -/
  | short
  | corrupt (c : Corruption)

namespace Parse

def bind {α β : Type} : Parse α → (α → Bytes → Parse β) → Parse β
  | value a r, f => f a r
  | short, _ => short
  | corrupt c, _ => corrupt c

/-- The first `n` bytes. -/
def take (n : Nat) (bs : Bytes) : Parse Bytes :=
  if bs.length < n then short else value (bs.take n) (bs.drop n)

/-- A number in `k` bytes. -/
def number (k : Nat) (bs : Bytes) : Parse Nat :=
  (take k bs).bind fun d r => value (ofLittleEndian d) r

/-- Bytes preceded by their number. -/
def block (bs : Bytes) : Parse Bytes := (number 8 bs).bind take

/-- A text preceded by the number of its bytes. -/
def text (bs : Bytes) : Parse String :=
  (block bs).bind fun d r =>
    match ofUtf8? d with
    | some s => value s r
    | none => corrupt .badText

/-- One entry of the log. -/
def command (bs : Bytes) : Parse Command :=
  (number 4 bs).bind fun tag r =>
    match tag with
    | 0 => (text r).bind fun k r => (block r).bind fun v r => value (.set k v) r
    | 1 => (text r).bind fun k r => value (.delete k) r
    | n => corrupt (.badTag n)

theorem bind_eq_value_iff {α β : Type} {p : Parse α} {f : α → Bytes → Parse β} {b : β} {r : Bytes} :
    p.bind f = value b r ↔ ∃ a r', p = value a r' ∧ f a r' = value b r := by
  cases p <;> simp [bind, and_assoc]

theorem length_of_take {n : Nat} {bs d r : Bytes} (h : take n bs = value d r) :
    r.length + n = bs.length := by
  simp only [take] at h
  split at h
  · cases h
  · cases h
    simp
    omega

theorem length_of_number {k n : Nat} {bs r : Bytes} (h : number k bs = value n r) :
    r.length + k = bs.length := by
  obtain ⟨d, r', ht, he⟩ := bind_eq_value_iff.1 h
  cases he
  exact length_of_take ht

theorem length_of_block {bs d r : Bytes} (h : block bs = value d r) : r.length ≤ bs.length := by
  obtain ⟨n, r', hn, ht⟩ := bind_eq_value_iff.1 h
  have := length_of_number hn
  have := length_of_take ht
  omega

theorem length_of_text {bs r : Bytes} {s : String} (h : text bs = value s r) :
    r.length ≤ bs.length := by
  obtain ⟨d, r', hb, he⟩ := bind_eq_value_iff.1 h
  split at he
  · cases he
    exact length_of_block hb
  · cases he

/-- An entry takes at least the bytes of its tag. -/
theorem length_lt_of_command {bs r : Bytes} {c : Command} (h : command bs = value c r) :
    r.length < bs.length := by
  obtain ⟨tag, r₁, hn, h⟩ := bind_eq_value_iff.1 h
  have := length_of_number hn
  split at h
  · obtain ⟨k, r₂, hk, h⟩ := bind_eq_value_iff.1 h
    obtain ⟨v, r₃, hv, he⟩ := bind_eq_value_iff.1 h
    have := length_of_text hk
    have := length_of_block hv
    cases he
    omega
  · obtain ⟨k, r₂, hk, he⟩ := bind_eq_value_iff.1 h
    have := length_of_text hk
    cases he
    omega
  · cases h

end Parse

namespace Log

/-- The whole entries at the head of a file, up to where it ends or tears. -/
def replay (bs : Bytes) : Except Corruption (List Command) :=
  match _h : Parse.command bs with
  | .short => .ok []
  | .corrupt c => .error c
  | .value c rest =>
    match replay rest with
    | .ok cs => .ok (c :: cs)
    | .error e => .error e
termination_by bs.length
decreasing_by exact Parse.length_lt_of_command _h

end Log

end LockCell
