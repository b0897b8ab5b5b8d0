import LockCell.Text.Unprintable

/-
  LockCell.Text.Quoted — a text between double quotes, for messages. The quote and the
  backslash get a backslash, the common controls their letter, every other character that
  would not show is written as its code point in hexadecimal; all else stays, the single
  quote among it.
-/

namespace LockCell.Text

/-- Hexadecimal digits in lower case, no leading zero. -/
def hex (n : Nat) : String := String.ofList (Nat.toDigits 16 n)

/-- One character of a quoted text. -/
def quotedChar (c : Char) : String :=
  match c with
  | '"' => "\\\""
  | '\\' => "\\\\"
  | '\n' => "\\n"
  | '\r' => "\\r"
  | '\t' => "\\t"
  | '\x00' => "\\0"
  | c =>
    if c.toNat < 0x7f && 0x20 ≤ c.toNat then c.toString
    else if unprintable c then "\\u\x7b" ++ hex c.toNat ++ "\x7d"
    else c.toString

def quoted (s : String) : String :=
  "\"" ++ String.join (s.toList.map quotedChar) ++ "\""

/-- A text that may be missing: `None`, or `Some("...")` around the quoted text. -/
def quotedOption : Option String → String
  | none => "None"
  | some s => "Some(" ++ quoted s ++ ")"

end LockCell.Text
