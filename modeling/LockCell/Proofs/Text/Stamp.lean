import LockCell.Proofs.Text.Reading
import LockCell.Stamp
import Mathlib.Algebra.Group.Nat.Defs

/-
  LockCell.Proofs.Text.Stamp — a moment is read back from its text.

  Numbers are written with zeros before them, to a width that is also the most that the
  reader takes, so each of them ends where the writer ended it (`gives_scanNumber`). Of the
  fraction only zeros are left out, which the reader adds again. A year outside 0 to 9999
  is not looked at here.
-/

namespace LockCell.Stamp

open Text

variable {s : List Char} {c : Char} {k n : Nat}

/-! ## Padded numbers -/

theorem isDigit_padded : ∀ c ∈ padded k n, c.isDigit = true := by
  intro c hc
  rcases List.mem_append.1 hc with hc | hc
  · obtain rfl := (List.mem_replicate.1 hc).2
    rfl
  · exact isDigit_toDigits n c hc

theorem padded_ne_nil : padded k n ≠ [] :=
  List.append_ne_nil_of_right_ne_nil _ Nat.toDigits_ne_nil

theorem length_padded (hk : 0 < k) (hn : n < 10 ^ k) : (padded k n).length = k := by
  have hle := (Nat.length_toDigits_le_iff (by decide) hk).2 hn
  simp only [padded, List.length_append, List.length_replicate]
  omega

theorem ofDigits_append_zeros (ds : List Char) (k : Nat) :
    ofDigits (ds ++ List.replicate k '0') = 10 ^ k * ofDigits ds := by
  show Nat.ofDigitChars 10 (ds ++ List.replicate k '0') 0 = 10 ^ k * Nat.ofDigitChars 10 ds 0
  rw [Nat.ofDigitChars_append, Nat.ofDigitChars_replicate_zero]

theorem ofDigits_padded : ofDigits (padded k n) = n := by
  show Nat.ofDigitChars 10 (padded k n) 0 = n
  rw [padded, Nat.ofDigitChars_append, Nat.ofDigitChars_replicate_zero, Nat.mul_zero]
  exact ofDigits_toDigits n

/-! ## Parts of a moment -/

theorem isBlank_of_isDigit (h : c.isDigit = true) : Text.isBlank c = false := by
  simp [Char.isDigit, UInt32.le_iff_toNat_le] at h
  simp [Text.isBlank, blankRanges]
  omega

theorem gives_skipBlanks (h : Text.isBlank c = false) : Gives skipBlanks (c :: s) () (c :: s) := by
  have hs : trimStart (c :: s) = c :: s := by simp [trimStart, h]
  have hg := gives_modify (m := Option) trimStart (c :: s)
  rwa [hs] at hg

theorem gives_take (c : Char) (s : List Char) : Gives take (c :: s) c s :=
  .bind (gives_get _) (.bind (gives_set _ _) (gives_pure _ _))

theorem gives_separator (h : Text.isBlank c = false) : Gives (separator c) (c :: s) () s := by
  refine .bind (gives_skipBlanks h) (.bind (gives_take _ _) ?_)
  rw [beq_self_eq_true, if_pos rfl]
  exact gives_pure _ _

theorem gives_takeIf_none {p : Char → Bool} (h : p c = false) :
    Gives (takeIf p) (c :: s) none (c :: s) := by
  refine .bind (gives_get _) ?_
  simp only [h]
  exact gives_pure _ _

theorem gives_takeIf_some {p : Char → Bool} (h : p c = true) :
    Gives (takeIf p) (c :: s) (some c) s := by
  refine .bind (gives_get _) ?_
  simp only [h]
  exact .bind (gives_set _ _) (gives_pure _ _)

theorem gives_digits {most : Option Nat} (hk : 0 < k) (hn : n < 10 ^ k) (hm : ∀ m ∈ most, k ≤ m)
    (hs : DigitFree s) : Gives (digits most) (padded k n ++ s) (padded k n) s := by
  have hne := List.isEmpty_eq_false_iff.2 (padded_ne_nil (k := k) (n := n))
  have hset : Gives (do
      set ((padded k n ++ s).drop (padded k n).length)
      return padded k n : Scan (List Char)) (padded k n ++ s) (padded k n) s := by
    rw [List.drop_left]
    exact .bind (gives_set _ _) (gives_pure _ _)
  refine .bind (gives_get _) ?_
  rw [takeWhile_isDigit_append isDigit_padded hs]
  cases most with
  | none =>
    simp only [hne]
    exact hset
  | some m =>
    have htake : (padded k n).take m = padded k n :=
      List.take_of_length_le (by rw [length_padded hk hn]; exact hm m rfl)
    simp only [htake, hne]
    exact hset

theorem padded_append_eq_cons (k n : Nat) (s : List Char) :
    ∃ d t, padded k n ++ s = d :: t ∧ d.isDigit = true := by
  obtain ⟨d, ds, hds⟩ := List.exists_cons_of_ne_nil (padded_ne_nil (k := k) (n := n))
  have hd : d ∈ padded k n := hds ▸ List.mem_cons_self
  exact ⟨d, ds ++ s, by rw [hds, List.cons_append], isDigit_padded d hd⟩

theorem gives_skipBlanks_padded (k n : Nat) (s : List Char) :
    Gives skipBlanks (padded k n ++ s) () (padded k n ++ s) := by
  obtain ⟨d, t, he, hd⟩ := padded_append_eq_cons k n s
  rw [he]
  exact gives_skipBlanks (isBlank_of_isDigit hd)

theorem gives_scanNumber (hk : 0 < k) (hn : n < 10 ^ k) (hs : DigitFree s) :
    Gives (scanNumber k) (padded k n ++ s) n s := by
  refine .bind (gives_skipBlanks_padded k n s)
    (.bind (gives_digits hk hn (by simp) hs) ?_)
  rw [ofDigits_padded]
  exact gives_pure _ _

theorem gives_scanYear {y : Int} (hy : 0 ≤ y ∧ y ≤ 9999) (hs : DigitFree s) :
    Gives scanYear (writeYear y ++ s) y s := by
  obtain ⟨n, rfl⟩ := Int.eq_ofNat_of_zero_le hy.1
  have hw : writeYear n = padded 4 n := if_pos hy
  obtain ⟨d, t, he, hd⟩ := padded_append_eq_cons 4 n s
  have hsign : Gives (takeIf fun c => c == '-' || c == '+') (padded 4 n ++ s) none
      (padded 4 n ++ s) := by
    rw [he]
    refine gives_takeIf_none ?_
    rw [Bool.or_eq_false_iff, beq_eq_false_iff_ne, beq_eq_false_iff_ne]
    constructor <;> rintro rfl <;> cases hd
  rw [hw]
  refine .bind (gives_skipBlanks_padded 4 n s) (.bind hsign ?_)
  refine .bind (gives_digits (by decide) (by omega) (by simp) hs) ?_
  rw [ofDigits_padded]
  exact gives_pure _ _

/-- A fraction of `k` digits, in units of which `i` zeros make nanoseconds. -/
theorem gives_scanFraction_padded {i : Nat} (hk : 0 < k) (hi : k + i = 9) (hn : n < 10 ^ k)
    (hs : DigitFree s) : Gives scanFraction ('.' :: padded k n ++ s) (n * 10 ^ i) s := by
  have hlen := length_padded hk hn
  refine .bind (gives_takeIf_some rfl) (.bind (gives_digits hk hn (by simp) hs) ?_)
  simp only [List.take_of_length_le (Nat.le_trans (Nat.le_of_eq hlen) (by omega : k ≤ 9))]
  rw [ofDigits_append_zeros, ofDigits_padded, hlen, Nat.mul_comm, (by omega : 9 - k = i)]
  exact gives_pure _ _

theorem gives_scanFraction (hn : n < 1000000000) (hs : DigitFree (c :: s)) (hc : c ≠ '.') :
    Gives scanFraction (writeFraction n ++ c :: s) n (c :: s) := by
  unfold writeFraction
  split
  case isTrue h =>
    subst h
    exact .bind (gives_takeIf_none (by simpa using hc)) (gives_pure _ _)
  case isFalse =>
    split
    case isTrue h =>
      have hg := gives_scanFraction_padded (i := 6) (by decide) rfl
        (by omega : n / 1000000 < 10 ^ 3) hs
      rwa [(by omega : n / 1000000 * 10 ^ 6 = n)] at hg
    case isFalse =>
      split
      case isTrue h =>
        have hg := gives_scanFraction_padded (i := 3) (by decide) rfl
          (by omega : n / 1000 < 10 ^ 6) hs
        rwa [(by omega : n / 1000 * 10 ^ 3 = n)] at hg
      case isFalse =>
        have hg := gives_scanFraction_padded (i := 0) (by decide) rfl (by omega : n < 10 ^ 9) hs
        rwa [Nat.pow_zero, Nat.mul_one] at hg

theorem digitFree_writeFraction (n : Nat) (hs : DigitFree s) :
    DigitFree (writeFraction n ++ s) := by
  unfold writeFraction
  split
  · exact hs
  · split
    · exact digitFree_cons rfl
    · split <;> exact digitFree_cons rfl

theorem gives_scanOffset : Gives scanOffset ['Z'] 0 [] :=
  .bind (gives_get _) (.bind (gives_take _ _) (gives_pure _ _))

theorem toUniversal_zero {t : Stamp} (h : t.Valid) : t.toUniversal 0 = t := by
  obtain ⟨-, -, -, -, -, -, hh, hm, -, -⟩ := h
  have hlow : ¬ (60 * (t.hour : Int) + t.minute - 0 < 0) := by omega
  have hhigh : 60 * (t.hour : Int) + t.minute - 0 < 1440 := by omega
  simp only [toUniversal, if_neg hlow, if_pos hhigh]
  have hd : ((60 * (t.hour : Int) + t.minute - 0) % 1440).toNat / 60 = t.hour := by omega
  have hr : ((60 * (t.hour : Int) + t.minute - 0) % 1440).toNat % 60 = t.minute := by omega
  rw [hd, hr]

/-! ## The whole moment -/

theorem daysIn_le (y : Int) (m : Nat) : daysIn y m ≤ 31 := by
  unfold daysIn
  split
  · split <;> omega
  all_goals omega

theorem gives_scan {t : Stamp} (h : t.Valid) (hy : 0 ≤ t.year ∧ t.year ≤ 9999) :
    Gives scan t.write t [] := by
  obtain ⟨-, -, -, hmonth, -, hday, hhour, hmin, hsec, hnano⟩ := id h
  have hday : t.day < 10 ^ 2 := by
    have := daysIn_le t.year t.month
    omega
  have hw : t.write = writeYear t.year ++ '-' :: (padded 2 t.month ++ '-' :: (padded 2 t.day ++
      'T' :: (padded 2 t.hour ++ ':' :: (padded 2 t.minute ++ ':' :: (padded 2 t.second ++
        (writeFraction t.nano ++ ['Z'])))))) := by
    simp [write]
  rw [hw]
  refine .bind (gives_scanYear hy (digitFree_cons rfl)) ?_
  refine .bind (gives_separator rfl) ?_
  refine .bind (gives_scanNumber (by decide) (by omega) (digitFree_cons rfl)) ?_
  refine .bind (gives_separator rfl) ?_
  refine .bind (gives_scanNumber (by decide) hday (digitFree_cons rfl)) ?_
  refine .bind (gives_take _ _) ?_
  refine .bind (gives_scanNumber (by decide) (by omega) (digitFree_cons rfl)) ?_
  refine .bind (gives_separator rfl) ?_
  refine .bind (gives_scanNumber (by decide) (by omega) (digitFree_cons rfl)) ?_
  refine .bind (gives_separator rfl) ?_
  refine .bind (gives_scanNumber (by decide) (by omega)
    (digitFree_writeFraction _ (digitFree_cons rfl))) ?_
  refine .bind (gives_scanFraction hnano (digitFree_cons rfl) (by decide)) ?_
  refine .bind (gives_skipBlanks rfl) (.bind gives_scanOffset ?_)
  refine .bind (gives_modify _ _) ?_
  simp only [if_neg (not_not_intro h), toUniversal_zero h]
  exact gives_pure _ _

theorem read?_write {t : Stamp} (h : t.Valid) (hy : 0 ≤ t.year ∧ t.year ≤ 9999) :
    read? t.write = some t := by
  have hg := gives_scan h hy
  rw [Gives] at hg
  simp [read?, hg]

end LockCell.Stamp
