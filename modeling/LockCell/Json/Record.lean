import LockCell.Json.Codec

/-
  LockCell.Json.Record — values with named fields.

  A record is written as an object, its fields in their order. It is read from an object
  in any order, or from an array of its fields in their order. In an object, a field that
  the record does not have is passed over (or refused, if the record is strict), a second
  value for a field is refused as soon as its name has been read, and at the end a field
  may be missing if it says so. An array may end early only where all fields left say so.

  `Fields α σ` are the fields of an `α`; a `σ` is what has been read of one.
-/

namespace LockCell.Json

structure FieldSpec (α : Type) where
  name : String
  codec : Codec α
  /-- The value if an object lacks the field. -/
  absent : Option α := none
  /-- The value if an array ends before it. -/
  trailing : Option α := none
  /-- Values that are not written. -/
  omitted : α → Bool := fun _ => false

namespace FieldSpec

def required {α : Type} (name : String) (c : Codec α) : FieldSpec α := { name, codec := c }

def nullable {α : Type} (name : String) (c : Codec α) : FieldSpec (Option α) :=
  { name, codec := c.option, absent := some none }

/-- A field with a value of its own if it is missing. -/
def withDefault {α : Type} (name : String) (c : Codec α) (a : α) : FieldSpec α :=
  { name, codec := c, absent := some a, trailing := some a }

end FieldSpec

inductive Fields : Type → Type → Type 1 where
  | nil : Fields Unit Unit
  | cons {α β σ : Type} (f : FieldSpec α) (rest : Fields β σ) : Fields (α × β) (Option α × σ)

inductive Entry (σ : Type) where
  | unknown
  | repeated
  /-- Read the value, which fills one more field. -/
  | value (r : Reader σ)

namespace Fields

variable {α σ : Type}

def blank : {α σ : Type} → Fields α σ → σ
  | _, _, nil => ()
  | _, _, cons _ rest => (none, rest.blank)

def parts : {α σ : Type} → Fields α σ → α → List (List Char)
  | _, _, nil, _ => []
  | _, _, cons f rest, (a, b) =>
    if f.omitted a then rest.parts b else f.codec.entry f.name a :: rest.parts b

/-- What the name `key` asks for, given what has been read. -/
def entry (depth : Nat) (key : String) : {α σ : Type} → Fields α σ → σ → Entry σ
  | _, _, nil, _ => .unknown
  | _, _, cons f rest, (a, s) =>
    if f.name = key then
      match a with
      | some _ => .repeated
      | none => .value do
        expect ':'
        return (some (← f.codec.read depth), s)
    else
      match entry depth key rest s with
      | .unknown => .unknown
      | .repeated => .repeated
      | .value r => .value do return (a, ← r)

/-- The record, if all that must be there has been read. -/
def finish : {α σ : Type} → Fields α σ → σ → Option α
  | _, _, nil, _ => some ()
  | _, _, cons f rest, (a, s) => do
    let a ← a <|> f.absent
    let b ← rest.finish s
    return (a, b)

/-- The record, if all its fields may be left out of an array. -/
def trailing : {α σ : Type} → Fields α σ → Option α
  | _, _, nil => some ()
  | _, _, cons f rest => do
    let a ← f.trailing
    let b ← rest.trailing
    return (a, b)

/-- The fields as values of an array; its bracket stays. -/
def values (depth : Nat) : {α σ : Type} → Fields α σ → Bool → Reader α
  | _, _, nil, _ => return ()
  | _, _, cons f rest, first => do
    if ← more first then
      let a ← f.codec.read depth
      return (a, ← rest.values depth false)
    else
      match (cons f rest).trailing with
      | some r => return r
      | none => .mistyped

def step (fs : Fields α σ) (strict : Bool) (depth : Nat) (key : String) (s : σ) : Reader σ :=
  match fs.entry depth key s with
  | .unknown => if strict then .mistyped else do expect ':'; skip depth; return s
  | .repeated => .mistyped
  | .value r => r

def read (fs : Fields α σ) (strict : Bool) (depth : Nat) : Reader α := do
  match ← peek with
  | '[' =>
    inside '[' depth fun depth => do
      let a ← fs.values depth true
      expect ']'
      return a
  | '{' =>
    inside '{' depth fun depth => do
      match fs.finish (← entries (fs.step strict depth) (← fuelHere) true fs.blank) with
      | some a => return a
      | none => .mistyped
  | _ => wrong

/-- A record; a strict one refuses fields that it does not have. -/
def codec (fs : Fields α σ) (strict : Bool := false) : Codec α where
  write a := bracketed '{' '}' (fs.parts a)
  read := fs.read strict

end Fields

end LockCell.Json
