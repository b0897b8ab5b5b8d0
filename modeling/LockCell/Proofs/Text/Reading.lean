import LockCell.Text.Digits

/-
  LockCell.Proofs.Text.Reading — readers that take the head off a text.

  Each of them is a state of characters over a monad that may fail. `Gives` says that one
  does not: what it gives, and what it leaves. It goes along with the parts of a reader
  (`Gives.bind`), so a reader is followed through a text step by step.
-/

namespace LockCell.Text

variable {m : Type → Type} [Monad m] {α β : Type} {r : StateT (List Char) m α}
  {f : α → StateT (List Char) m β} {s s' t : List Char} {a : α} {b : β}

/-- From the text `s` the reader gives `a` and leaves `s'`. -/
def Gives (r : StateT (List Char) m α) (s : List Char) (a : α) (s' : List Char) : Prop :=
  r.run s = pure (a, s')

theorem Gives.bind [LawfulMonad m] (hr : Gives r s a s') (hf : Gives (f a) s' b t) :
    Gives (r >>= f) s b t := by
  unfold Gives at *
  rw [StateT.run_bind, hr, pure_bind, hf]

theorem Gives.map [LawfulMonad m] (g : α → β) (hr : Gives r s a s') :
    Gives (g <$> r) s (g a) s' := by
  unfold Gives at *
  rw [StateT.run_map, hr, map_pure]

theorem gives_pure (a : α) (s : List Char) :
    Gives (pure a : StateT (List Char) m α) s a s := by
  rw [Gives, StateT.run_pure]

theorem gives_get (s : List Char) : Gives (get : StateT (List Char) m (List Char)) s s s := by
  rw [Gives, StateT.run_get]

theorem gives_set (s s' : List Char) :
    Gives (set s' : StateT (List Char) m PUnit) s ⟨⟩ s' := by
  rw [Gives, StateT.run_set]

theorem gives_modify (g : List Char → List Char) (s : List Char) :
    Gives (modify g : StateT (List Char) m PUnit) s ⟨⟩ (g s) := by
  rw [Gives, StateT.run_modify]

/-! ## Decimal numbers -/

/-- The text does not go on with a digit. -/
def DigitFree (s : List Char) : Prop := ∀ c ∈ s.head?, c.isDigit = false

theorem digitFree_cons {c : Char} (h : c.isDigit = false) : DigitFree (c :: s) := by
  simpa [DigitFree] using h

theorem takeWhile_isDigit_append {ds : List Char} (hd : ∀ c ∈ ds, c.isDigit = true)
    (hs : DigitFree s) : (ds ++ s).takeWhile Char.isDigit = ds := by
  rw [List.takeWhile_append_of_pos hd]
  cases s with
  | nil => simp
  | cons c s => simp [hs c (by simp)]

theorem isDigit_toDigits (n : Nat) : ∀ c ∈ Nat.toDigits 10 n, c.isDigit = true :=
  fun _ hc => Nat.isDigit_of_mem_toDigits (by decide) (by decide) hc

theorem ofDigits_toDigits (n : Nat) : ofDigits (Nat.toDigits 10 n) = n :=
  Nat.ofDigitChars_ten_toDigits

end LockCell.Text
