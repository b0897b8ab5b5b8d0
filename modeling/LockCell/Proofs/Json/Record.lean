import LockCell.Json.Record
import LockCell.Proofs.Json.Codec

/-
  LockCell.Proofs.Json.Record — records survive their text.

  A record survives if its fields have names of their own, if each value that is written
  survives, and if each that is not is the one that stands for an absent field
  (`Fields.survives_codec`). The object is read by its entries: at a field's name the state of
  the fields before it is handed on unchanged (`step_cons_of_ne`), which carries the
  induction over the fields.
-/

namespace LockCell.Json

open Text

namespace FieldSpec

variable {α : Type} {f : FieldSpec α} {n : Nat} {a : α}

/-- A value is read back from its field. -/
def Survives (f : FieldSpec α) (n : Nat) (a : α) : Prop :=
  if f.omitted a then f.absent = some a else f.codec.Survives n a

theorem survives_of_omitted (ho : f.omitted a = true) (h : f.absent = some a) :
    f.Survives n a := by
  rwa [Survives, if_pos ho]

theorem survives_of_written (ho : f.omitted a = false) (h : f.codec.Survives n a) :
    f.Survives n a := by
  rwa [Survives, ho, if_neg Bool.false_ne_true]

theorem Survives.mono (h : f.Survives n a) {k : Nat} (hk : n ≤ k) : f.Survives k a := by
  unfold Survives at *
  split
  case isTrue ho => rwa [if_pos ho] at h
  case isFalse ho =>
    rw [if_neg ho] at h
    exact h.mono hk

end FieldSpec

namespace Fields

variable {α β σ τ : Type}

def names : {α σ : Type} → Fields α σ → List String
  | _, _, nil => []
  | _, _, cons f rest => f.name :: rest.names

/-- Each value is read back from its field. -/
def Survive (n : Nat) : {α σ : Type} → Fields α σ → α → Prop
  | _, _, nil, _ => True
  | _, _, cons f rest, (a, b) => f.Survives n a ∧ rest.Survive n b

/-- Behind a field of another name, the other fields take an entry as if they were alone. -/
theorem step_cons_of_ne {f : FieldSpec α} {rest : Fields β σ} {strict : Bool} {depth : Nat}
    {key : String} (hk : f.name ≠ key) (x : Option α) (s : σ) :
    (cons f rest).step strict depth key (x, s) = (x, ·) <$> rest.step strict depth key s := by
  simp only [step, entry, if_neg hk]
  cases rest.entry depth key s with
  | unknown =>
    cases strict with
    | false => simp
    | true => rfl
  | repeated => rfl
  | value r => simp

/-- At its own name an empty field takes its value. -/
theorem step_cons_self (f : FieldSpec α) (rest : Fields β σ) (strict : Bool) (depth : Nat)
    (s : σ) : (cons f rest).step strict depth f.name (none, s) = (do
      expect ':'
      return (some (← f.codec.read depth), s)) := by
  simp [step, entry]

/-- The fields are filled entry by entry, also as a part of a larger state that `lift` puts
them into. -/
theorem steps_parts {fs : Fields α σ} {n depth : Nat} {a : α} (strict : Bool) (lift : σ → τ)
    {step' : String → τ → Reader τ} (hd : n ≤ depth) (h : fs.Survive n a)
    (hn : fs.names.Nodup)
    (hstep : ∀ key ∈ fs.names, ∀ s, step' key (lift s) = lift <$> fs.step strict depth key s) :
    ∃ s', fs.finish s' = some a ∧ Steps step' (fs.parts a) (lift fs.blank) (lift s') := by
  induction fs generalizing τ with
  | nil => exact ⟨(), rfl, .nil⟩
  | cons f rest ih =>
    obtain ⟨a, b⟩ := a
    obtain ⟨ha, hb⟩ := h
    obtain ⟨hf, hn⟩ := List.nodup_cons.1 hn
    -- the fields after this one, whatever has been read of this one
    have hrest (x : Option _) : ∃ s', rest.finish s' = some b ∧
        Steps step' (rest.parts b) (lift (x, rest.blank)) (lift (x, s')) := by
      refine ih (fun s => lift (x, s)) hb hn fun key hk s => ?_
      have hne : f.name ≠ key := fun he => hf (he ▸ hk)
      rw [hstep key (List.mem_cons_of_mem _ hk), step_cons_of_ne hne]
      simp
    unfold FieldSpec.Survives at ha
    by_cases ho : f.omitted a
    · rw [if_pos ho] at ha
      obtain ⟨s', hs', hsteps⟩ := hrest none
      refine ⟨(none, s'), by simp [finish, ha, hs'], ?_⟩
      simpa [parts, ho, blank] using hsteps
    · rw [if_neg ho] at ha
      obtain ⟨s', hs', hsteps⟩ := hrest (some a)
      refine ⟨(some a, s'), by simp [finish, hs'], ?_⟩
      simp only [parts, ho]
      refine .cons (fun t ht => ?_) hsteps
      rw [blank, hstep f.name List.mem_cons_self, step_cons_self]
      exact .map lift (.bind (gives_expect rfl) (.bind (ha _ hd _ ht) (gives_pure _ _)))

theorem survives_codec {fs : Fields α σ} {n : Nat} {a : α} (strict : Bool)
    (h : fs.Survive n a) (hn : fs.names.Nodup) : (fs.codec strict).Survives (n + 1) a := by
  refine Codec.survives_of_succ fun depth hd rest _ => ?_
  obtain ⟨s', hs', hsteps⟩ := steps_parts strict id hd h hn fun key _ s => (id_map _).symm
  show Gives _ (bracketed '{' '}' (fs.parts a) ++ rest) a rest
  rw [bracketed_append]
  refine .bind (gives_peek rfl) ?_
  refine gives_inside rfl ?_
  refine .bind (gives_fuelHere _) (.bind hsteps.gives_object ?_)
  rw [id, hs']
  exact gives_pure _ _

end Fields

end LockCell.Json
