import LockCell.Text.Digits

/-
  LockCell.Json.Text — the smallest parts of a JSON text: blanks, literals, strings and
  numbers.

  A text can be bad in two ways: it is no JSON (`malformed`), or it is JSON of another
  type than is wanted (`mistyped`). Readers go from left to right and stop at the first
  flaw, so what comes first in the text decides which it is. A value of the wrong type
  is read to its end if it is a scalar, and flawed at its bracket if it is not (`wrong`).
-/

namespace LockCell.Json

/-- What is bad about a text. -/
inductive Flaw where
  | malformed
  | mistyped
  deriving DecidableEq, Repr

/-- Takes a value off the head of a text. -/
abbrev Reader := StateT (List Char) (Except Flaw)

namespace Reader

def malformed {α : Type} : Reader α := throw .malformed

def mistyped {α : Type} : Reader α := throw .mistyped

end Reader

/-- The four blanks of JSON. -/
def isBlank (c : Char) : Bool := c == ' ' || c == '\n' || c == '\t' || c == '\r'

def skipBlanks : Reader Unit := modify (·.dropWhile isBlank)

/-- Skips blanks and takes the next character. -/
def next : Reader Char := do
  skipBlanks
  match ← get with
  | [] => .malformed
  | c :: r => set r; return c

/-- Skips blanks and shows the next character without taking it. -/
def peek : Reader Char := do
  skipBlanks
  match ← get with
  | [] => .malformed
  | c :: _ => return c

/-- Takes the next character, which must be `c`. -/
def expect (c : Char) : Reader Unit := do
  if (← next) == c then return
  .malformed

/-- Takes exactly these characters. -/
def literal (cs : List Char) : Reader Unit := do
  let s ← get
  if cs.isPrefixOf s then set (s.drop cs.length)
  else .malformed

/-! ## Strings -/

def hexValue? (c : Char) : Option Nat :=
  if '0' ≤ c ∧ c ≤ '9' then some (c.toNat - '0'.toNat)
  else if 'a' ≤ c ∧ c ≤ 'f' then some (c.toNat - 'a'.toNat + 10)
  else if 'A' ≤ c ∧ c ≤ 'F' then some (c.toNat - 'A'.toNat + 10)
  else none

/-- The number of four hexadecimal digits. -/
def hex4? (a b c d : Char) : Option Nat := do
  let a ← hexValue? a
  let b ← hexValue? b
  let c ← hexValue? c
  let d ← hexValue? d
  return ((a * 16 + b) * 16 + c) * 16 + d

/-- What a backslash and a letter stand for. -/
def escape? : Char → Option Char
  | '"' => some '"'
  | '\\' => some '\\'
  | '/' => some '/'
  | 'b' => some '\x08'
  | 'f' => some '\x0c'
  | 'n' => some '\n'
  | 'r' => some '\r'
  | 't' => some '\t'
  | _ => none

/-- The first unit of a pair. -/
def isHigh (n : Nat) : Bool := 0xD800 ≤ n && n < 0xDC00

/-- The second unit of a pair. -/
def isLow (n : Nat) : Bool := 0xDC00 ≤ n && n < 0xE000

/-- The character of a pair of units. -/
def pairChar (high low : Nat) : Char :=
  Char.ofNat (0x10000 + (high - 0xD800) * 0x400 + (low - 0xDC00))

/-- The characters up to the closing quote, and what follows it. A unit of a pair must
come with its partner. -/
def stringTail : List Char → Option (List Char × List Char)
  | '"' :: r => some ([], r)
  | '\\' :: 'u' :: a :: b :: c :: d :: r =>
    match hex4? a b c d with
    | none => none
    | some n =>
      if isLow n then none
      else if isHigh n then
        match r with
        | '\\' :: 'u' :: a :: b :: c :: d :: r =>
          match hex4? a b c d with
          | none => none
          | some m =>
            if isLow m then (stringTail r).map fun (s, r) => (pairChar n m :: s, r) else none
        | _ => none
      else (stringTail r).map fun (s, r) => (Char.ofNat n :: s, r)
  | '\\' :: c :: r =>
    match escape? c with
    | none => none
    | some c => (stringTail r).map fun (s, r) => (c :: s, r)
  | c :: r =>
    if c.toNat < 0x20 || c == '\\' then none
    else (stringTail r).map fun (s, r) => (c :: s, r)
  | [] => none

/-- What follows the closing quote of a string that is passed over: pairs are not
checked. -/
def passString : List Char → Option (List Char)
  | '"' :: r => some r
  | '\\' :: 'u' :: a :: b :: c :: d :: r =>
    if (hex4? a b c d).isSome then passString r else none
  | '\\' :: c :: r => if (escape? c).isSome then passString r else none
  | c :: r => if c.toNat < 0x20 || c == '\\' then none else passString r
  | [] => none

/-- The rest of a string whose opening quote is taken. -/
def stringBody : Reader String := do
  match stringTail (← get) with
  | none => .malformed
  | some (s, r) => set r; return String.ofList s

/-- Passes over the rest of a string. -/
def skipString : Reader Unit := do
  match passString (← get) with
  | none => .malformed
  | some r => set r

/-- Four hexadecimal digits in lower case. -/
def hex4 (n : Nat) : List Char :=
  [n / 4096 % 16, n / 256 % 16, n / 16 % 16, n % 16].map Nat.digitChar

def writeChar (c : Char) : List Char :=
  match c with
  | '"' => ['\\', '"']
  | '\\' => ['\\', '\\']
  | '\n' => ['\\', 'n']
  | '\r' => ['\\', 'r']
  | '\t' => ['\\', 't']
  | '\x08' => ['\\', 'b']
  | '\x0c' => ['\\', 'f']
  | c => if c.toNat < 0x20 then '\\' :: 'u' :: hex4 c.toNat else [c]

def writeString (s : String) : List Char := '"' :: s.toList.flatMap writeChar ++ ['"']

/-! ## Numbers -/

/-- A number as it is written. -/
structure Numeral where
  negative : Bool
  /-- The digits before the point. -/
  whole : List Char
  /-- The digits after it, if there is a point. -/
  fraction : Option (List Char)
  /-- What stands after the `e`, if there is one. -/
  exponent : Option Int

namespace Numeral

/-- The number that `n` ends in has no point and no exponent. -/
def nat? (n : Numeral) : Option Nat :=
  if n.negative || n.fraction.isSome || n.exponent.isSome then none
  else some (Text.ofDigits n.whole)

/-- What is as large as this, or larger, is nearer to no binary number of 64 bits than to
infinity. -/
def bound : Nat := Nat.pow 2 1024 - Nat.pow 2 970

/-- The number is not too large for a binary number of 64 bits. -/
def inRange (n : Numeral) : Bool :=
  let fraction := n.fraction.getD []
  let m := Text.ofDigits (n.whole ++ fraction)
  let e := n.exponent.getD 0 - fraction.length
  if m = 0 then true
  else if 310 < e then false
  else if 0 ≤ e then m * Nat.pow 10 e.toNat < bound
  else m / Nat.pow 10 (min e.natAbs (n.whole.length + fraction.length)) < bound

end Numeral

/-- One digit or more. -/
def digits : Reader (List Char) := do
  let s ← get
  match s.takeWhile Char.isDigit with
  | [] => .malformed
  | ds => set (s.drop ds.length); return ds

/-- Takes the next character if it is one of these. -/
def optional (cs : List Char) : Reader (Option Char) := do
  match ← get with
  | [] => return none
  | c :: r => if cs.contains c then set r; return some c else return none

/-- A number, to the last character that belongs to it. -/
def numeral : Reader Numeral := do
  let negative := (← optional ['-']).isSome
  let whole ← digits
  if whole.head? = some '0' && 1 < whole.length then .malformed
  let fraction ← match ← optional ['.'] with
    | none => pure none
    | some _ => some <$> digits
  let exponent ← match ← optional ['e', 'E'] with
    | none => pure none
    | some _ => do
      let sign ← optional ['+', '-']
      let n := Text.ofDigits (← digits)
      pure (some (if sign = some '-' then -(n : Int) else (n : Int)))
  return { negative, whole, fraction, exponent }

/-- A number that is not too large. -/
def number : Reader Numeral := do
  let n ← numeral
  if n.inRange then return n
  .malformed

/-! ## Values of the wrong type -/

/-- Where another type is wanted: a scalar is read first, a bracket is flawed at once. -/
def wrong {α : Type} : Reader α := do
  match ← peek with
  | 'n' => literal ['n', 'u', 'l', 'l']
  | 't' => literal ['t', 'r', 'u', 'e']
  | 'f' => literal ['f', 'a', 'l', 's', 'e']
  | '"' => expect '"'; let _ ← stringBody
  | '[' | '{' => pure ()
  | c => if c == '-' || c.isDigit then let _ ← number else .malformed
  .mistyped

end LockCell.Json
