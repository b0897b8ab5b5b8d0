import LockCell.Json.Text
import LockCell.Proofs.Text.Reading
import Mathlib.Data.List.Basic

/-
  LockCell.Proofs.Json.Text — strings and whole numbers are read as they were written.

  Every character of a string has one spelling that the writer uses: itself, a backslash
  and a letter, or four hexadecimal digits (`stringTail_writeChar`). A whole number is
  written without zeros before it, and ends where a value may end (`Ends`).
-/

namespace LockCell.Json

open Text

/-- A value may end before this text. -/
def Ends : List Char → Prop
  | [] => True
  | c :: _ => c = ',' ∨ c = ']' ∨ c = '}'

variable {s rest : List Char} {c : Char}

/-! ## Characters -/

theorem gives_skipBlanks (h : isBlank c = false) : Gives skipBlanks (c :: s) () (c :: s) := by
  have hs : (c :: s).dropWhile isBlank = c :: s := by simp [h]
  have hg := gives_modify (m := Except Flaw) (List.dropWhile isBlank) (c :: s)
  rwa [hs] at hg

theorem gives_peek (h : isBlank c = false) : Gives peek (c :: s) c (c :: s) :=
  .bind (gives_skipBlanks h) (.bind (gives_get _) (gives_pure _ _))

theorem gives_next (h : isBlank c = false) : Gives next (c :: s) c s :=
  .bind (gives_skipBlanks h) (.bind (gives_get _) (.bind (gives_set _ _) (gives_pure _ _)))

theorem gives_expect (h : isBlank c = false) : Gives (expect c) (c :: s) () s := by
  refine .bind (gives_next h) ?_
  rw [beq_self_eq_true, if_pos rfl]
  exact gives_pure _ _

theorem gives_literal (cs s : List Char) : Gives (literal cs) (cs ++ s) () s := by
  refine .bind (gives_get _) ?_
  rw [if_pos (by simp), List.drop_left]
  exact gives_set _ _

theorem gives_optional_none {cs : List Char} (h : ∀ c ∈ s.head?, c ∉ cs) :
    Gives (optional cs) s none s := by
  refine .bind (gives_get _) ?_
  cases s with
  | nil => exact gives_pure _ _
  | cons c s =>
    have hc : cs.contains c = false := by simpa using h c
    simp only [hc]
    exact gives_pure _ _

/-! ## Strings -/

theorem hexValue?_digitChar : ∀ n < 16, hexValue? n.digitChar = some n := by decide

theorem hex4?_hex4 {n : Nat} (h : n < 0x10000) :
    hex4? (n / 4096 % 16).digitChar (n / 256 % 16).digitChar (n / 16 % 16).digitChar
      (n % 16).digitChar = some n := by
  simp only [hex4?, hexValue?_digitChar _ (Nat.mod_lt _ (by decide : 0 < 16)),
    Option.bind_eq_bind, Option.bind_some, Option.pure_def, Option.some.injEq]
  omega

theorem stringTail_control {c : Char} (h : c.toNat < 0x20) (s : List Char) :
    stringTail ('\\' :: 'u' :: hex4 c.toNat ++ s) =
      (stringTail s).map fun (cs, r) => (c :: cs, r) := by
  -- so small a number is no half of a pair
  have hl : isLow c.toNat = false := by
    simp [isLow]
    omega
  have hh : isHigh c.toNat = false := by
    simp [isHigh]
    omega
  simp only [hex4, List.map_cons, List.map_nil, List.cons_append, List.nil_append]
  rw [stringTail, hex4?_hex4 (by omega)]
  simp [hl, hh, Char.ofNat_toNat]

theorem stringTail_plain {c : Char} (hq : c ≠ '"') (hb : c ≠ '\\') (h : ¬ c.toNat < 0x20)
    (s : List Char) : stringTail (c :: s) = (stringTail s).map fun (cs, r) => (c :: cs, r) := by
  rw [stringTail]
  · simp [h, hb]
  · exact hq
  · intro _ _ _ _ _ he
    exact absurd he hb
  · intro _ _ he
    exact absurd he hb

/-- What the writer spells is read as that character. -/
theorem stringTail_writeChar (c : Char) (s : List Char) :
    stringTail (writeChar c ++ s) = (stringTail s).map fun (cs, r) => (c :: cs, r) := by
  unfold writeChar
  split
  case h_8 hq hb _ _ _ _ _ =>
    split
    case isTrue h => exact stringTail_control h s
    case isFalse h => exact stringTail_plain hq hb h s
  -- a backslash and a letter
  all_goals rfl

theorem stringTail_flatMap (cs s : List Char) :
    stringTail (cs.flatMap writeChar ++ '"' :: s) = some (cs, s) := by
  induction cs with
  | nil => rfl
  | cons c cs ih => rw [List.flatMap_cons, List.append_assoc, stringTail_writeChar, ih]; rfl

theorem gives_stringBody (k : String) (s : List Char) :
    Gives stringBody (k.toList.flatMap writeChar ++ '"' :: s) k s := by
  refine .bind (gives_get _) ?_
  rw [stringTail_flatMap]
  refine .bind (gives_set _ _) ?_
  rw [String.ofList_toList]
  exact gives_pure _ _

theorem writeString_append (k : String) (s : List Char) :
    writeString k ++ s = '"' :: (k.toList.flatMap writeChar ++ '"' :: s) := by
  simp [writeString]

/-! ## Whole numbers -/

theorem Ends.digitFree (h : Ends rest) : DigitFree rest := by
  cases rest with
  | nil => simp [DigitFree]
  | cons c r => rcases h with rfl | rfl | rfl <;> exact digitFree_cons rfl

theorem Ends.notMem_head? (h : Ends rest) {cs : List Char}
    (hcs : ',' ∉ cs ∧ ']' ∉ cs ∧ '}' ∉ cs) : ∀ c ∈ rest.head?, c ∉ cs := by
  cases rest with
  | nil => simp
  | cons c r => rcases h with rfl | rfl | rfl <;> simp [hcs]

theorem gives_digits {ds : List Char} (hd : ∀ c ∈ ds, c.isDigit = true) (hne : ds ≠ [])
    (hs : DigitFree s) : Gives digits (ds ++ s) ds s := by
  obtain ⟨d, ds', rfl⟩ := List.exists_cons_of_ne_nil hne
  refine .bind (gives_get _) ?_
  rw [takeWhile_isDigit_append hd hs]
  dsimp only
  rw [List.drop_left]
  exact .bind (gives_set _ _) (gives_pure _ _)

theorem digitChar_ne_zero : ∀ n < 10, 0 < n → n.digitChar ≠ '0' := by decide

/-- No number but zero starts with a zero. -/
theorem toDigits_head?_ne {n : Nat} (h : 0 < n) : (Nat.toDigits 10 n).head? ≠ some '0' := by
  induction n using Nat.strongRecOn with
  | _ n ih =>
    rcases Nat.lt_or_ge n 10 with hn | hn
    · simpa [Nat.toDigits_of_lt_base hn] using digitChar_ne_zero n hn h
    · rw [Nat.toDigits_of_base_le (by decide) hn,
        List.head?_append_of_ne_nil _ Nat.toDigits_ne_nil]
      exact ih (n / 10) (by omega) (by omega)

theorem gives_numeral (n : Nat) (h : Ends rest) :
    Gives numeral (Nat.toDigits 10 n ++ rest) ⟨false, Nat.toDigits 10 n, none, none⟩ rest := by
  have hd := isDigit_toDigits n
  have hsign : ∀ c ∈ (Nat.toDigits 10 n ++ rest).head?, c ∉ ['-'] := by
    rw [List.head?_append_of_ne_nil _ Nat.toDigits_ne_nil]
    intro c hc hm
    obtain rfl := List.mem_singleton.1 hm
    exact absurd (hd _ (List.mem_of_mem_head? hc)) (by decide)
  have hzero : (decide ((Nat.toDigits 10 n).head? = some '0') &&
      decide (1 < (Nat.toDigits 10 n).length)) = false := by
    rcases Nat.eq_zero_or_pos n with rfl | hn
    · rfl
    · simp [toDigits_head?_ne hn]
  refine .bind (gives_optional_none hsign)
    (.bind (gives_digits hd Nat.toDigits_ne_nil h.digitFree) ?_)
  simp only [hzero]
  exact .bind (gives_optional_none (h.notMem_head? (by decide)))
    (.bind (gives_pure _ _) (.bind (gives_optional_none (h.notMem_head? (by decide)))
      (.bind (gives_pure _ _) (gives_pure _ _))))

/-- A number below the bound is in range. -/
theorem inRange_toDigits {n : Nat} (h : n < Numeral.bound) :
    Numeral.inRange ⟨false, Nat.toDigits 10 n, none, none⟩ = true := by
  simp [Numeral.inRange, ofDigits_toDigits, h]

theorem gives_number {n : Nat} (hn : n < Numeral.bound) (h : Ends rest) :
    Gives number (Nat.toDigits 10 n ++ rest) ⟨false, Nat.toDigits 10 n, none, none⟩ rest := by
  refine .bind (gives_numeral n h) ?_
  rw [inRange_toDigits hn, if_pos rfl]
  exact gives_pure _ _

/-- Numbers of 64 bits are in range. -/
theorem wordBound_le_bound : wordBound ≤ Numeral.bound := by decide +kernel

end LockCell.Json
