import LockCell.Json.Skip
import LockCell.Names

/-
  LockCell.Json.Codec — types that have a JSON text: how a value is written, compactly,
  and how it is read.

  A reader is told how many brackets it may still open. Objects and lists are read by the
  loops `entries` and `items`, whose fuel is the length of the text.
-/

namespace LockCell.Json

structure Codec (α : Type) where
  write : α → List Char
  /-- Reads a value in which brackets nest as deep as the number says. -/
  read : Nat → Reader α

/-- Brackets nest less deep than this. -/
def maxDepth : Nat := 127

/-- Writes between brackets, with commas. -/
def bracketed (opening closing : Char) (parts : List (List Char)) : List Char :=
  opening :: ([','].intercalate parts ++ [closing])

/-- Takes an opening bracket and goes on with one less to open. -/
def inside {α : Type} (opening : Char) (depth : Nat) (f : Nat → Reader α) : Reader α := do
  expect opening
  match depth with
  | 0 => .malformed
  | depth + 1 => f depth

/-- The entries of an object up to its bracket: `step` is given each key and reads on from
there. -/
def entries {σ : Type} (step : String → σ → Reader σ) : Nat → Bool → σ → Reader σ
  | 0, _, _ => .malformed
  | fuel + 1, first, s => do
    let c ← next
    if c == '}' then return s
    if c == ',' && !first then expect '"'
    else if !(c == '"' && first) then .malformed
    let key ← stringBody
    entries step fuel false (← step key s)

/-- What comes before the next value of a list: `false` at the closing bracket, which
stays. -/
def more (first : Bool) : Reader Bool := do
  let c ← peek
  if c == ']' then return false
  if !first then
    expect ','
    if (← peek) == ']' then .malformed
  return true

/-- The values of a list up to its bracket. -/
def items {α : Type} (item : Reader α) : Nat → Bool → List α → Reader (List α)
  | 0, _, _ => .malformed
  | fuel + 1, first, acc => do
    if ← more first then items item fuel false ((← item) :: acc)
    else
      expect ']'
      return acc.reverse

/-- Fuel for a loop that takes a character at least in every round. -/
def fuelHere : Reader Nat := return (← get).length + 1

namespace Codec

/-- The value and the text after it. -/
def readFrom {α : Type} (c : Codec α) (s : String) : Except Flaw (α × List Char) :=
  (c.read maxDepth).run s.toList

/-- The value of a text that may go on after it. -/
def readHead {α : Type} (c : Codec α) (s : String) : Except Flaw α :=
  (c.readFrom s).map (·.1)

/-- The value of a whole text; blanks may follow. -/
def readAll {α : Type} (c : Codec α) (s : String) : Except Flaw α := do
  let (a, r) ← c.readFrom s
  if r.all isBlank then return a
  throw .malformed

def toText {α : Type} (c : Codec α) (a : α) : String := String.ofList (c.write a)

/-- A string. -/
def text : Codec String where
  write := writeString
  read _ := do
    if (← peek) == '"' then expect '"'; stringBody
    else wrong

def bool : Codec Bool where
  write b := if b then ['t', 'r', 'u', 'e'] else ['f', 'a', 'l', 's', 'e']
  read _ := do
    match ← peek with
    | 't' => literal ['t', 'r', 'u', 'e']; return true
    | 'f' => literal ['f', 'a', 'l', 's', 'e']; return false
    | _ => wrong

/-- A whole number below the bound. -/
def nat (bound : Nat) : Codec Nat where
  write n := Nat.toDigits 10 n
  read _ := do
    let c ← peek
    if c == '-' || c.isDigit then
      match (← number).nat? with
      | some n => if n < bound then return n else .mistyped
      | none => .mistyped
    else wrong

/-- `null`, or a value. -/
def option {α : Type} (c : Codec α) : Codec (Option α) where
  write
    | none => ['n', 'u', 'l', 'l']
    | some a => c.write a
  read depth := do
    if (← peek) == 'n' then
      literal ['n', 'u', 'l', 'l']
      return none
    else return some (← c.read depth)

def list {α : Type} (c : Codec α) : Codec (List α) where
  write as := bracketed '[' ']' (as.map c.write)
  read depth := do
    if (← peek) == '[' then
      inside '[' depth fun depth => do items (c.read depth) (← fuelHere) true []
    else wrong

/-- One entry of an object. -/
def entry {α : Type} (c : Codec α) (key : String) (a : α) : List Char :=
  writeString key ++ ':' :: c.write a

/-- A map, in the order of its keys; of a key that comes twice the last value counts. -/
def dict {α : Type} (c : Codec α) : Codec (Dict α) where
  write d := bracketed '{' '}' (d.toList.map fun (k, a) => c.entry k a)
  read depth := do
    if (← peek) == '{' then
      inside '{' depth fun depth => do
        let step (k : String) (d : Dict α) : Reader (Dict α) := do
          expect ':'
          return d.insert k (← c.read depth)
        entries step (← fuelHere) true ∅
    else wrong

/-- The values of another type that have a form in this one. -/
def refine {α β : Type} (c : Codec α) (form : β → α) (value? : α → Option β) : Codec β where
  write b := c.write (form b)
  read depth := do
    match value? (← c.read depth) with
    | some b => return b
    | none => .mistyped

/-- The same texts for another type with as many values. -/
def map {α β : Type} (c : Codec α) (form : β → α) (value : α → β) : Codec β :=
  c.refine form (some ∘ value)

end Codec

end LockCell.Json
