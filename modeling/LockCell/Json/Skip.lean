import LockCell.Json.Text

/-
  LockCell.Json.Skip — passing over a value that nobody wants.

  The value must be JSON all the same, except that strings may hold half a pair and that
  numbers may be of any size. Brackets may nest as deep as `depth` says. The fuel is the
  length of the text: each call takes at least one character.
-/

namespace LockCell.Json

mutual

/-- Passes over a value. -/
def skipValue (depth : Nat) : Nat → Reader Unit
  | 0 => .malformed
  | fuel + 1 => do
    match ← peek with
    | 'n' => literal ['n', 'u', 'l', 'l']
    | 't' => literal ['t', 'r', 'u', 'e']
    | 'f' => literal ['f', 'a', 'l', 's', 'e']
    | '"' => expect '"'; skipString
    | '[' =>
      expect '['
      match depth with
      | 0 => .malformed
      | depth + 1 => if (← peek) == ']' then expect ']' else skipItems depth fuel
    | '{' =>
      expect '{'
      match depth with
      | 0 => .malformed
      | depth + 1 => if (← peek) == '}' then expect '}' else skipEntries depth fuel
    | c => if c == '-' || c.isDigit then let _ ← numeral else .malformed

/-- Passes over the values of a list, from one of them on, and its bracket. -/
def skipItems (depth : Nat) : Nat → Reader Unit
  | 0 => .malformed
  | fuel + 1 => do
    skipValue depth fuel
    match ← next with
    | ']' => return
    | ',' => skipItems depth fuel
    | _ => .malformed

/-- Passes over the entries of an object, from one of them on, and its bracket. -/
def skipEntries (depth : Nat) : Nat → Reader Unit
  | 0 => .malformed
  | fuel + 1 => do
    expect '"'
    skipString
    expect ':'
    skipValue depth fuel
    match ← next with
    | '}' => return
    | ',' => skipEntries depth fuel
    | _ => .malformed

end

/-- Passes over the next value. -/
def skip (depth : Nat) : Reader Unit := do
  skipValue depth (3 * ((← get).length + 1))

end LockCell.Json
