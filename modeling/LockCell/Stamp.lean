import LockCell.Text.Blank
import LockCell.Text.Digits

/-
  LockCell.Stamp — a moment of the calendar, in universal time.

  It is written as year, month, day, `T`, hour, minute, second and `Z`, with three, six or
  nine digits of the second's fraction or none, whichever is the first that loses nothing.
  A year outside 0 to 9999 has a sign. Reading is more lenient: numbers may be short and
  have blanks before them, blanks may stand beside the separators, and the moment may be
  given in local time with its offset.
-/

namespace LockCell

structure Stamp where
  year : Int
  month : Nat
  day : Nat
  hour : Nat
  minute : Nat
  /-- 60 in a leap second. -/
  second : Nat
  nano : Nat
  deriving DecidableEq, Repr

namespace Stamp

def isLeapYear (y : Int) : Bool := y % 4 == 0 && (y % 100 != 0 || y % 400 == 0)

def daysIn (y : Int) : Nat → Nat
  | 2 => if isLeapYear y then 29 else 28
  | 4 | 6 | 9 | 11 => 30
  | _ => 31

def minYear : Int := -262143

def maxYear : Int := 262142

/-- The moment exists. -/
def Valid (t : Stamp) : Prop :=
  minYear ≤ t.year ∧ t.year ≤ maxYear ∧ 1 ≤ t.month ∧ t.month ≤ 12 ∧ 1 ≤ t.day ∧
    t.day ≤ daysIn t.year t.month ∧ t.hour ≤ 23 ∧ t.minute ≤ 59 ∧ t.second ≤ 60 ∧
    t.nano < 1000000000

instance (t : Stamp) : Decidable t.Valid := by unfold Valid; infer_instance

/-! ## Writing -/

/-- `n` in at least `k` digits. -/
def padded (k n : Nat) : List Char :=
  let ds := Nat.toDigits 10 n
  List.replicate (k - ds.length) '0' ++ ds

def writeYear (y : Int) : List Char :=
  if 0 ≤ y ∧ y ≤ 9999 then padded 4 y.toNat
  else (if y < 0 then '-' else '+') :: padded 4 y.natAbs

def writeFraction (n : Nat) : List Char :=
  if n = 0 then []
  else if n % 1000000 = 0 then '.' :: padded 3 (n / 1000000)
  else if n % 1000 = 0 then '.' :: padded 6 (n / 1000)
  else '.' :: padded 9 n

def write (t : Stamp) : List Char :=
  writeYear t.year ++ '-' :: padded 2 t.month ++ '-' :: padded 2 t.day ++ 'T' :: padded 2 t.hour ++
    ':' :: padded 2 t.minute ++ ':' :: padded 2 t.second ++ writeFraction t.nano ++ ['Z']

/-! ## Reading -/

/-- Takes something off the head of a text, or fails. -/
abbrev Scan := StateT (List Char) Option

def skipBlanks : Scan Unit := modify Text.trimStart

/-- Takes the next character. -/
def take : Scan Char := do
  match ← get with
  | [] => failure
  | c :: r => set r; return c

/-- Takes one of these characters if it comes next. -/
def takeIf (p : Char → Bool) : Scan (Option Char) := do
  match ← get with
  | [] => return none
  | c :: r => if p c then set r; return some c else return none

/-- Takes `c`, which must come next. -/
def expect (c : Char) : Scan Unit := do
  if (← take) == c then return
  failure

/-- One digit or more, as many as there are and at most `most` if that is given. -/
def digits (most : Option Nat) : Scan (List Char) := do
  let s ← get
  let ds := s.takeWhile Char.isDigit
  let ds := match most with
    | some k => ds.take k
    | none => ds
  if ds.isEmpty then failure
  set (s.drop ds.length)
  return ds

/-- A number of at most `k` digits, blanks before it. -/
def scanNumber (k : Nat) : Scan Nat := do
  skipBlanks
  return Text.ofDigits (← digits (some k))

/-- A year of at most four digits, or of any number of digits after a sign. -/
def scanYear : Scan Int := do
  skipBlanks
  match ← takeIf (fun c => c == '-' || c == '+') with
  | some '-' => return -(Text.ofDigits (← digits none) : Int)
  | some _ => return Text.ofDigits (← digits none)
  | none => return Text.ofDigits (← digits (some 4))

/-- A separator, blanks before it. -/
def separator (c : Char) : Scan Unit := do
  skipBlanks
  expect c

/-- The fraction of a second, to nine digits; the others are dropped. -/
def scanFraction : Scan Nat := do
  match ← takeIf (· == '.') with
  | none => return 0
  | some _ =>
    let ds := (← digits none).take 9
    return Text.ofDigits (ds ++ List.replicate (9 - ds.length) '0')

def digit : Scan Nat := do
  let c ← take
  if c.isDigit then return c.toNat - '0'.toNat
  failure

/-- Exactly two digits. -/
def twoDigits : Scan Nat := do
  let a ← digit
  return 10 * a + (← digit)

/-- How many minutes the local time is ahead of universal time. -/
def scanOffset : Scan Int := do
  match ← get with
  | a :: b :: c :: r =>
    if [a, b, c].map Char.toUpper = ['U', 'T', 'C'] then
      set r
      return 0
  | _ => pure ()
  match ← take with
  | 'Z' | 'z' => return 0
  | sign =>
    if !(sign == '+' || sign == '-' || sign == '\u2212') then failure
    let hours ← twoDigits
    modify (·.dropWhile fun c => c == ':' || Text.isBlank c)
    let minutes ← twoDigits
    if 59 < minutes || 23 < hours then failure
    let n : Int := 60 * hours + minutes
    return if sign == '+' then n else -n

def nextDay (t : Stamp) : Stamp :=
  if t.day < daysIn t.year t.month then { t with day := t.day + 1 }
  else if t.month < 12 then { t with month := t.month + 1, day := 1 }
  else { t with year := t.year + 1, month := 1, day := 1 }

def previousDay (t : Stamp) : Stamp :=
  if 1 < t.day then { t with day := t.day - 1 }
  else if 1 < t.month then
    { t with month := t.month - 1, day := daysIn t.year (t.month - 1) }
  else { t with year := t.year - 1, month := 12, day := 31 }

/-- The moment that a clock `minutes` ahead shows as `t`. -/
def toUniversal (t : Stamp) (minutes : Int) : Stamp :=
  let m : Int := 60 * t.hour + t.minute - minutes
  let day := if m < 0 then t.previousDay else if m < 1440 then t else t.nextDay
  let m := (m % 1440).toNat
  { day with hour := m / 60, minute := m % 60 }

def scan : Scan Stamp := do
  let year ← scanYear
  separator '-'
  let month ← scanNumber 2
  separator '-'
  let day ← scanNumber 2
  let c ← take
  if !(c == 'T' || c == 't' || c == ' ') then failure
  let hour ← scanNumber 2
  separator ':'
  let minute ← scanNumber 2
  separator ':'
  let second ← scanNumber 2
  let nano ← scanFraction
  skipBlanks
  let minutes ← scanOffset
  skipBlanks
  let t : Stamp := { year, month, day, hour, minute, second, nano }
  if ¬ t.Valid then failure
  let t := t.toUniversal minutes
  if ¬ t.Valid then failure
  return t

/-- The moment that a whole text gives. -/
def read? (s : List Char) : Option Stamp :=
  match scan.run s with
  | some (t, []) => some t
  | _ => none

end Stamp

end LockCell
