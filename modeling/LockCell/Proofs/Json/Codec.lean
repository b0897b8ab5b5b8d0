import LockCell.Json.Codec
import LockCell.Proofs.Json.Text

/-
  LockCell.Proofs.Json.Codec — values that survive their text.

  A value survives if it is read back from what is written for it, wherever a value may
  stand and however many brackets are open around it (`Codec.Survives`). Scalars survive
  (`survives_text`, `survives_nat`, ...), and what is built of values that survive does
  too.
-/

namespace LockCell.Json

open Text

variable {α β σ : Type} {s rest : List Char}

/-! ## Brackets and commas -/

theorem bracketed_append (opening closing : Char) (ps : List (List Char)) (s : List Char) :
    bracketed opening closing ps ++ s = opening :: ([','].intercalate ps ++ closing :: s) := by
  simp [bracketed]

theorem intercalate_comma_cons (p : List Char) (ps : List (List Char)) :
    [','].intercalate (p :: ps) = p ++ ps.flatMap (',' :: ·) := by
  induction ps generalizing p with
  | nil => simp [List.intercalate]
  | cons q ps ih => rw [List.intercalate_cons_cons, ih]; simp

theorem ends_flatMap (ps : List (List Char)) (h : Ends s) : Ends (ps.flatMap (',' :: ·) ++ s) := by
  cases ps with
  | nil => exact h
  | cons p ps => exact Or.inl rfl

theorem gives_inside {opening : Char} {depth : Nat} {f : Nat → Reader α} {a : α} {s' : List Char}
    (ho : isBlank opening = false) (hf : Gives (f depth) s a s') :
    Gives (inside opening (depth + 1) f) (opening :: s) a s' :=
  .bind (gives_expect ho) hf

/-! ## Objects -/

/-- Each entry is a key and what `step` reads after it, and the entries in their order take
`s` to `s'`. -/
inductive Steps (step : String → σ → Reader σ) : List (List Char) → σ → σ → Prop
  | nil {s : σ} : Steps step [] s s
  | cons {key : String} {body : List Char} {ps : List (List Char)} {s s₁ s' : σ}
      (hstep : ∀ rest, Ends rest → Gives (step key s) (body ++ rest) s₁ rest)
      (h : Steps step ps s₁ s') : Steps step ((writeString key ++ body) :: ps) s s'

namespace Steps

variable {step : String → σ → Reader σ} {ps : List (List Char)} {x x' : σ}

theorem gives_entries_false (h : Steps step ps x x') {fuel : Nat} (hf : ps.length < fuel) :
    Gives (entries step fuel false x) (ps.flatMap (',' :: ·) ++ '}' :: s) x' s := by
  induction h generalizing fuel with
  | nil =>
    obtain ⟨fuel, rfl⟩ := Nat.exists_eq_add_of_lt hf
    exact .bind (gives_next rfl) (gives_pure _ _)
  | @cons key body ps x x₁ x' hstep h ih =>
    obtain ⟨fuel, rfl⟩ := Nat.exists_eq_add_one_of_ne_zero (Nat.ne_zero_of_lt hf)
    have hf : ps.length < fuel := by simpa using hf
    rw [List.flatMap_cons, List.append_assoc, List.cons_append, List.append_assoc,
      writeString_append]
    -- the comma, then the key
    refine .bind (gives_next rfl) ?_
    refine .bind (gives_expect rfl) (.bind (gives_stringBody _ _) ?_)
    exact .bind (hstep _ (ends_flatMap _ (by simp [Ends]))) (ih hf)

theorem gives_entries (h : Steps step ps x x') {fuel : Nat} (hf : ps.length < fuel) :
    Gives (entries step fuel true x) ([','].intercalate ps ++ '}' :: s) x' s := by
  obtain ⟨fuel, rfl⟩ := Nat.exists_eq_add_one_of_ne_zero (Nat.ne_zero_of_lt hf)
  cases h with
  | nil => exact .bind (gives_next rfl) (gives_pure _ _)
  | @cons key body ps _ x₁ _ hstep h =>
    have hf : ps.length < fuel := by simpa using hf
    rw [intercalate_comma_cons, List.append_assoc, List.append_assoc, writeString_append]
    refine .bind (gives_next rfl) (.bind (gives_stringBody _ _) ?_)
    exact .bind (hstep _ (ends_flatMap _ (by simp [Ends]))) (h.gives_entries_false hf)

end Steps

theorem length_le_length_intercalate (ps : List (List Char)) (c : Char) (s : List Char) :
    ps.length ≤ ([','].intercalate ps ++ c :: s).length := by
  have hle : ∀ ps : List (List Char), ps.length ≤ (ps.flatMap (',' :: ·)).length := by
    intro ps
    induction ps with
    | nil => simp
    | cons p ps ih => simp only [List.flatMap_cons, List.length_append, List.length_cons]; omega
  cases ps with
  | nil => simp
  | cons p ps =>
    have := hle ps
    simp only [intercalate_comma_cons, List.length_append, List.length_cons]
    omega

theorem gives_fuelHere (s : List Char) : Gives fuelHere s (s.length + 1) s :=
  .bind (gives_get _) (gives_pure _ _)

/-- The loop has fuel for a whole object. -/
theorem Steps.gives_object {step : String → σ → Reader σ} {ps : List (List Char)} {x x' : σ}
    (h : Steps step ps x x') :
    Gives (entries step (([','].intercalate ps ++ '}' :: s).length + 1) true x)
      ([','].intercalate ps ++ '}' :: s) x' s :=
  h.gives_entries (Nat.lt_succ_of_le (length_le_length_intercalate _ _ _))

/-- The text starts neither with a blank nor with `c`. -/
def Shuns (c : Char) (s : List Char) : Prop := ∃ x t, s = x :: t ∧ isBlank x = false ∧ x ≠ c

theorem isBlank_of_isDigit {c : Char} (h : c.isDigit = true) : isBlank c = false := by
  simp only [isBlank, Bool.or_eq_false_iff, beq_eq_false_iff_ne]
  refine ⟨⟨⟨?_, ?_⟩, ?_⟩, ?_⟩ <;> rintro rfl <;> cases h

theorem shuns_bracketed {c opening : Char} (hb : isBlank opening = false) (hc : opening ≠ c)
    (closing : Char) (ps : List (List Char)) : Shuns c (bracketed opening closing ps) :=
  ⟨opening, _, rfl, hb, hc⟩

theorem shuns_writeString {c : Char} (hc : '"' ≠ c) (k : String) : Shuns c (writeString k) :=
  ⟨'"', _, rfl, rfl, hc⟩

theorem shuns_toDigits {c : Char} (hc : c.isDigit = false) (n : Nat) :
    Shuns c (Nat.toDigits 10 n) := by
  obtain ⟨d, ds, hds⟩ := List.exists_cons_of_ne_nil (Nat.toDigits_ne_nil (n := n) (b := 10))
  have hd : d.isDigit = true := isDigit_toDigits n d (hds ▸ List.mem_cons_self)
  refine ⟨d, ds, hds, isBlank_of_isDigit hd, ?_⟩
  rintro rfl
  exact Bool.false_ne_true (hc.symm.trans hd)

namespace Codec

/-- With at least `n` brackets to open, `a` is read back from its text wherever a value may
stand. -/
def Survives (c : Codec α) (n : Nat) (a : α) : Prop :=
  ∀ depth, n ≤ depth → ∀ rest, Ends rest → Gives (c.read depth) (c.write a ++ rest) a rest

variable {c : Codec α} {n : Nat} {a : α}

theorem Survives.mono (h : c.Survives n a) {k : Nat} (hk : n ≤ k) : c.Survives k a :=
  fun depth hd => h depth (Nat.le_trans hk hd)

/-- A value that opens a bracket itself. -/
theorem survives_of_succ (h : ∀ depth, n ≤ depth → ∀ rest, Ends rest →
    Gives (c.read (depth + 1)) (c.write a ++ rest) a rest) : c.Survives (n + 1) a := by
  intro depth hd rest hr
  obtain ⟨depth, rfl⟩ := Nat.exists_eq_add_one_of_ne_zero (Nat.ne_zero_of_lt hd)
  exact h depth (Nat.le_of_succ_le_succ hd) rest hr

/-- A value that survives is the value of its whole text. -/
theorem Survives.readAll (h : c.Survives n a) (hn : n ≤ maxDepth) :
    c.readAll (c.toText a) = .ok a := by
  have hg := h maxDepth hn [] trivial
  rw [List.append_nil, Gives] at hg
  simp only [Codec.readAll, readFrom, toText, String.toList_ofList, hg]
  rfl

/-! ## Scalars -/

/-- A string ends with its quote, whatever follows. -/
theorem gives_text (depth : Nat) (k : String) (s : List Char) :
    Gives (text.read depth) (writeString k ++ s) k s := by
  rw [writeString_append]
  exact .bind (gives_peek rfl) (.bind (gives_expect rfl) (gives_stringBody _ _))

theorem survives_text (k : String) : text.Survives 0 k := fun depth _ rest _ =>
  gives_text depth k rest

theorem survives_bool (b : Bool) : bool.Survives 0 b := by
  intro depth _ rest _
  cases b with
  | false => exact .bind (gives_peek rfl) (.bind (gives_literal _ _) (gives_pure _ _))
  | true => exact .bind (gives_peek rfl) (.bind (gives_literal _ _) (gives_pure _ _))

theorem survives_nat {bound k : Nat} (hk : k < bound) (hb : bound ≤ Numeral.bound) :
    (nat bound).Survives 0 k := by
  intro depth _ rest hr
  show Gives _ (Nat.toDigits 10 k ++ rest) k rest
  have hg := gives_number (Nat.lt_of_lt_of_le hk hb) hr
  obtain ⟨d, ds, hds⟩ := List.exists_cons_of_ne_nil (Nat.toDigits_ne_nil (n := k) (b := 10))
  have hd : d.isDigit = true := isDigit_toDigits k d (by simp [hds])
  have hpeek : Gives peek (Nat.toDigits 10 k ++ rest) d (Nat.toDigits 10 k ++ rest) := by
    rw [hds]
    exact gives_peek (isBlank_of_isDigit hd)
  refine .bind hpeek ?_
  rw [hd, Bool.or_true, if_pos rfl]
  refine .bind hg ?_
  simp only [Numeral.nat?, ofDigits_toDigits]
  simp [hk, gives_pure]

/-! ## Options, lists and maps -/

theorem survives_none (c : Codec α) : c.option.Survives 0 none := fun _ _ _ _ =>
  .bind (gives_peek rfl) (.bind (gives_literal _ _) (gives_pure _ _))

theorem Survives.some (h : c.Survives n a) (hn : Shuns 'n' (c.write a)) :
    c.option.Survives n (some a) := by
  intro depth hd rest hr
  obtain ⟨x, t, hw, hx, hne⟩ := hn
  have hg := h depth hd rest hr
  have hpeek : Gives peek (c.write a ++ rest) x (c.write a ++ rest) := by
    rw [hw]
    exact gives_peek hx
  refine .bind hpeek ?_
  rw [if_neg (by simpa using hne)]
  exact .bind hg (gives_pure _ _)

section

variable {w : List Char} {as : List α} {depth : Nat}

theorem gives_more_true (hw : Shuns ']' w) : Gives (more true) (w ++ s) true (w ++ s) := by
  obtain ⟨x, t, rfl, hx, hne⟩ := hw
  refine .bind (gives_peek hx) ?_
  rw [if_neg (by simpa using hne)]
  exact gives_pure _ _

theorem gives_more_false (hw : Shuns ']' w) :
    Gives (more false) (',' :: (w ++ s)) true (w ++ s) := by
  obtain ⟨x, t, rfl, hx, hne⟩ := hw
  refine .bind (gives_peek rfl) (.bind (gives_expect rfl) (.bind (gives_peek hx) ?_))
  rw [if_neg (by simpa using hne)]
  exact gives_pure _ _

theorem gives_items_done (r : Reader α) (fuel : Nat) (first : Bool) (acc : List α) :
    Gives (items r (fuel + 1) first acc) (']' :: s) acc.reverse s :=
  .bind (.bind (gives_peek rfl) (gives_pure _ _)) (.bind (gives_expect rfl) (gives_pure _ _))

theorem gives_items_false (h : ∀ a ∈ as, c.Survives n a ∧ Shuns ']' (c.write a))
    (hd : n ≤ depth) (acc : List α) {fuel : Nat} (hf : as.length < fuel) :
    Gives (items (c.read depth) fuel false acc)
      ((as.map c.write).flatMap (',' :: ·) ++ ']' :: s) (acc.reverse ++ as) s := by
  obtain ⟨fuel, rfl⟩ := Nat.exists_eq_add_one_of_ne_zero (Nat.ne_zero_of_lt hf)
  induction as generalizing acc fuel with
  | nil =>
    rw [List.append_nil]
    exact gives_items_done _ _ _ _
  | cons a as ih =>
    have hf : as.length < fuel := by simpa using hf
    obtain ⟨fuel, rfl⟩ := Nat.exists_eq_add_one_of_ne_zero (Nat.ne_zero_of_lt hf)
    obtain ⟨⟨ha, hw⟩, has⟩ := List.forall_mem_cons.1 h
    rw [List.map_cons, List.flatMap_cons, List.append_assoc, List.cons_append]
    refine .bind (gives_more_false hw) (.bind (ha _ hd _ (ends_flatMap _ (by simp [Ends]))) ?_)
    have hg := ih has (a :: acc) _ hf
    rwa [List.reverse_cons, List.append_assoc, List.singleton_append] at hg

theorem survives_list (h : ∀ a ∈ as, c.Survives n a ∧ Shuns ']' (c.write a)) :
    c.list.Survives (n + 1) as := by
  refine survives_of_succ fun depth hd rest _ => ?_
  show Gives _ (bracketed '[' ']' (as.map c.write) ++ rest) as rest
  rw [bracketed_append]
  refine .bind (gives_peek rfl) ?_
  rw [beq_self_eq_true, if_pos rfl]
  refine gives_inside rfl (.bind (gives_fuelHere _) ?_)
  cases as with
  | nil => exact gives_items_done _ _ _ _
  | cons a as =>
    -- the first value has no comma before it
    obtain ⟨⟨ha, hw⟩, has⟩ := List.forall_mem_cons.1 h
    have hlen := length_le_length_intercalate (c.write a :: as.map c.write) ']' rest
    rw [List.length_cons, List.length_map] at hlen
    rw [List.map_cons]
    rw [intercalate_comma_cons, List.append_assoc] at hlen ⊢
    refine .bind (gives_more_true hw) (.bind (ha _ hd _ (ends_flatMap _ (by simp [Ends]))) ?_)
    exact gives_items_false has hd [a] hlen

end

/-- Entry by entry, a map grows to what it was. -/
theorem steps_insertMany {depth : Nat} {es : List (String × α)}
    (h : ∀ e ∈ es, c.Survives n e.2) (hd : n ≤ depth) (d : Dict α) :
    Steps (fun k (d : Dict α) => do expect ':'; return d.insert k (← c.read depth))
      (es.map fun (k, a) => c.entry k a) d (d.insertMany es) := by
  induction es generalizing d with
  | nil => exact .nil
  | cons e es ih =>
    obtain ⟨he, hes⟩ := List.forall_mem_cons.1 h
    rw [Std.ExtTreeMap.insertMany_cons]
    exact .cons (fun rest hr => .bind (gives_expect rfl) (.bind (he _ hd _ hr) (gives_pure _ _)))
      (ih hes _)

theorem insertMany_toList (d : Dict α) : (∅ : Dict α).insertMany d.toList = d := by
  refine Std.ExtTreeMap.ext_getElem? fun k => ?_
  cases hk : d[k]? with
  | none =>
    have hn : (d.toList.map Prod.fst).contains k = false := by
      simpa [Std.ExtTreeMap.mem_toList_iff_getElem?_eq_some] using hk
    rw [Std.ExtTreeMap.getElem?_insertMany_list_of_contains_eq_false hn]
    exact Std.ExtTreeMap.getElem?_empty
  | some a =>
    exact Std.ExtTreeMap.getElem?_insertMany_list_of_mem Std.ReflCmp.compare_self
      Std.ExtTreeMap.distinct_keys_toList
      (Std.ExtTreeMap.mem_toList_iff_getElem?_eq_some.2 hk)

theorem survives_dict {d : Dict α} (h : ∀ e ∈ d.toList, c.Survives n e.2) :
    (dict c).Survives (n + 1) d := by
  refine survives_of_succ fun depth hd rest _ => ?_
  have hs := steps_insertMany h hd ∅
  rw [insertMany_toList] at hs
  show Gives _ (bracketed '{' '}' (d.toList.map fun (k, a) => c.entry k a) ++ rest) d rest
  rw [bracketed_append]
  refine .bind (gives_peek rfl) ?_
  rw [beq_self_eq_true, if_pos rfl]
  exact gives_inside rfl (.bind (gives_fuelHere _) hs.gives_object)

/-! ## Other types -/

theorem Survives.refine {form : β → α} {value? : α → Option β} {b : β}
    (h : c.Survives n (form b)) (hv : value? (form b) = Option.some b) :
    (c.refine form value?).Survives n b := by
  intro depth hd rest hr
  refine .bind (h depth hd rest hr) ?_
  rw [hv]
  exact gives_pure _ _

theorem Survives.map {form : β → α} {value : α → β} {b : β} (h : c.Survives n (form b))
    (hv : value (form b) = b) : (c.map form value).Survives n b :=
  h.refine (congrArg Option.some hv)

end Codec

end LockCell.Json
