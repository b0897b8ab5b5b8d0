import LockCell.Lock.Table

/-
  LockCell.Proofs.Lock.Holds — who holds what.

  A table is sound when every record in it is (`Slots.Sound`), and `t.Holds c p m` says that
  the record of `p` has `c` among its owners and stands in the mode `m`. In a sound table
  - nobody holds a lock in the free mode (`Holds.ne_free`),
  - all holds of a lock are in one mode (`Holds.mode_eq`),
  - whoever holds it exclusively is alone (`Holds.eq_of_exclusive`), so two clients hold a
    lock only in the shared mode (`Holds.shared`).

  `put` is the only way in which a table changes; what it does to the holds is told for the
  record as it was, for a record with one owner more, and for one with one owner less.
-/

namespace LockCell

/-! ## One record -/

namespace Record

/-- Another owner in the mode `m` does no harm. -/
def Admits (r : Record) (m : Mode) : Prop := r.mode = .free ∨ r.mode = .shared ∧ m = .shared

instance (r : Record) (m : Mode) : Decidable (r.Admits m) := inferInstanceAs (Decidable (_ ∨ _))

def grant (r : Record) (c : Client) (m : Mode) : Record :=
  { r with mode := m, owners := r.owners.insert c }

def without (r : Record) (c : Client) : Record :=
  { r with
    owners := r.owners.erase c
    mode := if (r.owners.erase c).isEmpty then .free else r.mode }

theorem check_of_sound {r : Record} (h : r.Sound) : r.check = .ok () := by
  unfold check
  rw [(flaw?_eq_none_iff r).2 h]

theorem acquire_of_sound {r : Record} (h : r.Sound) (c : Client) (p : Path) (m : Mode) :
    r.acquire c p m =
      if r.ownedBy c then .error (.alreadyOwned c p)
      else if r.Admits m then .ok (some (r.grant c m))
      else .ok none := by
  unfold acquire
  rw [check_of_sound h]
  by_cases ho : r.ownedBy c = true
  · rw [if_pos ho, if_pos ho]; rfl
  · rw [if_neg ho, if_neg ho]
    obtain ⟨q, k, o⟩ := r
    cases k <;> cases m <;> rfl

theorem release_of_sound {r : Record} (h : r.Sound) (c : Client) (p : Path) :
    r.release c p =
      if r.mode = .free then
        .error (.invariant p ("release by " ++ c ++ " reached a FREE lock"))
      else if r.ownedBy c then .ok (r.without c)
      else .error (.notOwned c p) := by
  unfold release
  rw [check_of_sound h]
  by_cases hf : r.mode = .free
  · rw [if_pos hf, if_pos hf]; rfl
  · rw [if_neg hf, if_neg hf]
    cases ho : r.ownedBy c <;> rfl

theorem ownedBy_iff (r : Record) (c : Client) : r.ownedBy c = true ↔ c ∈ r.owners := by
  simp [ownedBy]

theorem sound_free (p : Path) : (free p).Sound := by
  simp [Sound, free]

theorem mem_grant (r : Record) (c d : Client) (m : Mode) :
    d ∈ (r.grant c m).owners ↔ d = c ∨ d ∈ r.owners := by
  simp [grant, eq_comm (a := d)]

theorem mem_without (r : Record) (c d : Client) :
    d ∈ (r.without c).owners ↔ d ∈ r.owners ∧ d ≠ c := by
  simp [without, eq_comm (a := d), and_comm]

/-- The mode changes only if nobody is left. -/
theorem mode_without {r : Record} {c d : Client} (hd : d ∈ (r.without c).owners) :
    (r.without c).mode = r.mode := by
  have hne : ¬ (r.owners.erase c).isEmpty = true := fun he =>
    Std.ExtTreeSet.ne_empty_of_mem hd (Std.ExtTreeSet.isEmpty_iff.1 he)
  simp only [without, if_neg hne]

theorem not_free_of_mem {r : Record} (h : r.Sound) {c : Client} (hc : c ∈ r.owners) :
    r.mode ≠ .free := by
  intro hf
  simp only [Sound, hf] at h
  rw [Std.ExtTreeSet.eq_empty_iff_size_eq_zero.2 h] at hc
  exact Std.ExtTreeSet.not_mem_empty hc

theorem exists_mem_of_not_free {r : Record} (h : r.Sound) (hm : r.mode ≠ .free) :
    ∃ c, c ∈ r.owners := by
  by_cases he : ∃ c, c ∈ r.owners
  · exact he
  · have h0 : r.owners.size = 0 := Std.ExtTreeSet.eq_empty_iff_size_eq_zero.1
      (Std.ExtTreeSet.eq_empty_iff_forall_not_mem.2 fun c hc => he ⟨c, hc⟩)
    cases hk : r.mode with
    | free => exact absurd hk hm
    | exclusive => simp only [Sound, hk] at h; omega
    | shared => simp only [Sound, hk] at h; omega

/-- An exclusive record has no second owner. -/
theorem eq_of_exclusive {r : Record} (h : r.Sound) (hm : r.mode = .exclusive) {c d : Client}
    (hc : c ∈ r.owners) (hd : d ∈ r.owners) : d = c := by
  simp only [Sound, hm] at h
  by_cases e : d = c
  · exact e
  · have hs : (r.owners.erase c).size = 0 := by
      rw [Std.ExtTreeSet.size_erase, if_pos (Std.ExtTreeSet.contains_iff_mem.2 hc), h]
    have hd' : d ∈ r.owners.erase c := by
      simp [hd, Ne.symm e]
    rw [Std.ExtTreeSet.eq_empty_iff_size_eq_zero.2 hs] at hd'
    exact absurd hd' Std.ExtTreeSet.not_mem_empty

theorem sound_grant {r : Record} (h : r.Sound) {c : Client} {m : Mode} (hm : m ≠ .free)
    (ha : r.Admits m) (hc : c ∉ r.owners) : (r.grant c m).Sound := by
  have hs : (r.owners.insert c).size = r.owners.size + 1 := by
    rw [Std.ExtTreeSet.size_insert, if_neg (by simpa using hc)]
  rcases ha with hf | ⟨-, rfl⟩
  · simp only [Sound, hf] at h
    cases m with
    | free => exact absurd rfl hm
    | exclusive => simp only [Sound, grant]; omega
    | shared => simp only [Sound, grant]; omega
  · simp only [Sound, grant]; omega

theorem sound_without {r : Record} (h : r.Sound) {c : Client} (hc : c ∈ r.owners) :
    (r.without c).Sound := by
  by_cases he : (r.owners.erase c).isEmpty
  · have h0 : (r.owners.erase c).size = 0 :=
      Std.ExtTreeSet.eq_empty_iff_size_eq_zero.1 (Std.ExtTreeSet.isEmpty_iff.1 he)
    simp [Sound, without, he, h0]
  · have hs : (r.owners.erase c).size ≠ 0 := fun h0 =>
      he (Std.ExtTreeSet.isEmpty_iff.2 (Std.ExtTreeSet.eq_empty_iff_size_eq_zero.2 h0))
    have hn : (r.owners.erase c).size = r.owners.size - 1 := by
      rw [Std.ExtTreeSet.size_erase, if_pos (Std.ExtTreeSet.contains_iff_mem.2 hc)]
    cases hm : r.mode with
    | free => exact absurd hm (not_free_of_mem h hc)
    | exclusive => simp only [Sound, hm] at h; omega
    | shared => simp only [Sound, without, he, hm]; simp; omega

end Record

/-! ## A table -/

namespace Slots

/-- The record of `p` has `c` among its owners and stands in the mode `m`. -/
def Holds (t : Slots) (c : Client) (p : Path) (m : Mode) : Prop :=
  ∃ r, t.record? p = some r ∧ c ∈ r.owners ∧ r.mode = m

/-- Every record is sound. -/
def Sound (t : Slots) : Prop := ∀ p r, t.record? p = some r → r.Sound

@[simp] theorem record?_put (t : Slots) (p q : Path) (r : Option Record) :
    (t.put p r).record? q = if q = p then r else t.record? q := by
  unfold put record?
  cases r <;> grind

@[simp] theorem record?_empty (p : Path) : (∅ : Slots).record? p = none := by
  simp [record?]

theorem sound_empty : (∅ : Slots).Sound := by
  intro p r h
  simp at h

theorem not_holds_empty (c : Client) (p : Path) (m : Mode) : ¬ (∅ : Slots).Holds c p m := by
  intro hx
  obtain ⟨r, h, -⟩ := hx
  simp at h

theorem Holds.mode_eq {t : Slots} {c d : Client} {p : Path} {m k : Mode} (h : t.Holds c p m)
    (h' : t.Holds d p k) : m = k := by
  obtain ⟨r, hr, -, rfl⟩ := h
  obtain ⟨r', hr', -, rfl⟩ := h'
  rw [hr] at hr'
  cases hr'
  rfl

theorem Holds.ne_free {t : Slots} (ht : t.Sound) {c : Client} {p : Path} {m : Mode}
    (h : t.Holds c p m) : m ≠ .free := by
  obtain ⟨r, hr, hc, rfl⟩ := h
  exact Record.not_free_of_mem (ht p r hr) hc

/-- Whoever holds a lock exclusively holds it alone. -/
theorem Holds.eq_of_exclusive {t : Slots} (ht : t.Sound) {c d : Client} {p : Path} {m : Mode}
    (h : t.Holds c p .exclusive) (h' : t.Holds d p m) : d = c := by
  obtain ⟨r, hr, hc, hm⟩ := h
  obtain ⟨r', hr', hd, -⟩ := h'
  rw [hr] at hr'
  cases hr'
  exact Record.eq_of_exclusive (ht p r hr) hm hc hd

/-- Two clients hold one lock only in the shared mode. -/
theorem Holds.shared {t : Slots} (ht : t.Sound) {c d : Client} {p : Path} {m k : Mode}
    (h : t.Holds c p m) (h' : t.Holds d p k) (hne : c ≠ d) : m = .shared ∧ k = .shared := by
  have hmk := h.mode_eq h'
  subst hmk
  cases m with
  | free => exact absurd rfl (h.ne_free ht)
  | exclusive => exact absurd (h.eq_of_exclusive ht h') (Ne.symm hne)
  | shared => exact ⟨rfl, rfl⟩

theorem Sound.put {t : Slots} (ht : t.Sound) {p : Path} {o : Option Record}
    (ho : ∀ r, o = some r → r.Sound) : (t.put p o).Sound := by
  intro q r hr
  rw [record?_put] at hr
  split at hr
  · exact ho r hr
  · exact ht q r hr

theorem holds_put (t : Slots) (c : Client) (p q : Path) (m : Mode) (o : Option Record) :
    (t.put p o).Holds c q m ↔
      if q = p then ∃ r, o = some r ∧ c ∈ r.owners ∧ r.mode = m else t.Holds c q m := by
  unfold Holds
  rw [record?_put]
  split <;> rfl

/-- Leaving the record as it is leaves every hold as it is. -/
theorem holds_put_record? (t : Slots) (c : Client) (p q : Path) (m : Mode) :
    (t.put p (t.record? p)).Holds c q m ↔ t.Holds c q m := by
  rw [holds_put]
  split
  · rename_i e; rw [e]; rfl
  · rfl

theorem holds_put_without {t : Slots} {r : Record} {p : Path} (hr : t.record? p = some r)
    (c d : Client) (q : Path) (k : Mode) :
    (t.put p (some (r.without c))).Holds d q k ↔ t.Holds d q k ∧ ¬ (d = c ∧ q = p) := by
  rw [holds_put]
  by_cases e : q = p
  · subst e
    rw [if_pos rfl]
    constructor
    · intro hx
      obtain ⟨r', hr', hd, rfl⟩ := hx
      cases hr'
      have hd' := (Record.mem_without _ _ _).1 hd
      exact ⟨⟨r, hr, hd'.1, (Record.mode_without hd).symm⟩, fun hc => hd'.2 hc.1⟩
    · intro he
      obtain ⟨⟨r', hr', hd, rfl⟩, hc⟩ := he
      rw [hr] at hr'
      cases hr'
      have hd' : d ∈ (r.without c).owners :=
        (Record.mem_without _ _ _).2 ⟨hd, fun e => hc ⟨e, rfl⟩⟩
      exact ⟨_, rfl, hd', Record.mode_without hd'⟩
  · rw [if_neg e]
    simp [e]

/-- Nobody is in the way of `m`: nobody holds the lock, or all that do and `m` are shared. -/
def Admits (t : Slots) (p : Path) (m : Mode) : Prop :=
  (∀ c k, ¬ t.Holds c p k) ∨ m = .shared ∧ ∀ c k, t.Holds c p k → k = .shared

end Slots

end LockCell
