import LockCell.Json.Union
import LockCell.Proofs.Json.Codec

/-
  LockCell.Proofs.Json.Union — values of several kinds survive their text.

  The name that is written must be the first of that name among the kinds that are read.
-/

namespace LockCell.Json

open Text

namespace Variant

variable {α β : Type} {vs : List (Variant α)} {name : String} {a : α} {rest : List Char}

/-- A bare name stands for its value. -/
theorem gives_read_name (depth : Nat)
    (h : (vs.find? (·.name == name)).bind (·.bare) = some a) :
    Gives (read vs depth) (writeString name ++ rest) a rest := by
  rw [writeString_append]
  refine .bind (gives_peek rfl) ?_
  refine .bind (gives_expect rfl) (.bind (gives_stringBody _ _) ?_)
  rw [h]
  exact gives_pure _ _

/-- Contents under a name are read as that kind reads them. -/
theorem gives_read_tagged {v : Variant α} {body : List Char} {depth : Nat}
    (hv : vs.find? (·.name == name) = some v)
    (h : Gives (v.contents depth) (body ++ '}' :: rest) a ('}' :: rest)) :
    Gives (read vs (depth + 1)) (tagged name body ++ rest) a rest := by
  rw [tagged, bracketed_append, List.intercalate_singleton, List.append_assoc, List.cons_append]
  refine .bind (gives_peek rfl) ?_
  refine gives_inside rfl (.bind (Codec.gives_text _ _ _) ?_)
  rw [hv]
  exact .bind (gives_expect rfl) (.bind h (.bind (gives_expect rfl) (gives_pure _ _)))

/-- A value survives that is written as its kind and contents that survive. -/
theorem survives_of_holding {c : Codec α} {k : Codec β} {make : β → α} {n : Nat} {b : β}
    (hread : c.read = read vs) (hwrite : c.write a = tagged name (k.write b))
    (hv : vs.find? (·.name == name) = some (holding name k make)) (ha : make b = a)
    (h : k.Survives n b) : c.Survives (n + 1) a := by
  refine Codec.survives_of_succ fun depth hd rest _ => ?_
  rw [hread, hwrite, ← ha]
  exact gives_read_tagged hv (.bind (h depth hd _ (Or.inr (Or.inr rfl))) (gives_pure _ _))

end Variant

end LockCell.Json
