import LockCell.Json.Codec

/-
  LockCell.Json.Union — values of one of several kinds.

  A kind without contents is written as its name. Any other is an object with one entry,
  from the name to the contents; a kind without contents may be read from such an object
  too, with `null`.
-/

namespace LockCell.Json

/-- One kind of an `α`. -/
structure Variant (α : Type) where
  name : String
  /-- The value that the bare name stands for. -/
  bare : Option α
  contents : Nat → Reader α

namespace Variant

def unit {α : Type} (name : String) (a : α) : Variant α where
  name
  bare := some a
  contents _ := do
    if (← peek) == 'n' then literal ['n', 'u', 'l', 'l']; return a
    else wrong

def holding {α β : Type} (name : String) (c : Codec β) (make : β → α) : Variant α where
  name
  bare := none
  contents depth := return make (← c.read depth)

/-- Reads one of several kinds. -/
def read {α : Type} (vs : List (Variant α)) (depth : Nat) : Reader α := do
  match ← peek with
  | '{' =>
    inside '{' depth fun depth => do
      let name ← Codec.text.read depth
      match vs.find? (·.name == name) with
      | none => .mistyped
      | some v =>
        expect ':'
        let a ← v.contents depth
        expect '}'
        return a
  | '"' =>
    expect '"'
    let name ← stringBody
    match (vs.find? (·.name == name)).bind (·.bare) with
    | none => .mistyped
    | some a => return a
  | _ => .malformed

def tagged (name : String) (contents : List Char) : List Char :=
  bracketed '{' '}' [writeString name ++ ':' :: contents]

end Variant

end LockCell.Json
