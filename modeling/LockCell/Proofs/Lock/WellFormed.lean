import LockCell.Proofs.Lock.ReaderWriter
import LockCell.Proofs.Session.Calls

/-
  LockCell.Proofs.Lock.WellFormed — the entries of a lock table, and the one way in which a
  call finds the table at odds with itself.

  An entry is well formed if it has a record, which is the path's own and passes its check
  (`Slots.WellFormed`). Whatever the store says, granted or refused, a call of the table
  leaves nothing else behind (`wellFormed_call`), and so do a session's calls and its end.
  The store may say that a lock exists whose record is free: a delete at another server and
  an open there do that to a lock that is held here. A release of such a lock is refused as
  an invariant violation (`FreeRelease`), and no other call ever is (`call_eq_invariant_iff`).
-/

namespace LockCell

namespace Record

/-- The record belongs to the path and passes its check. -/
def Fits (r : Record) (p : Path) : Prop := r.path = p ∧ r.check = .ok ()

variable {r : Record} {p : Path} {c : Client} {m : Mode}

theorem check_eq_ok_iff : r.check = .ok () ↔ r.Sound := by
  rw [← flaw?_eq_none_iff]
  unfold check
  cases r.flaw? <;> simp

theorem Fits.sound (h : r.Fits p) : r.Sound := check_eq_ok_iff.1 h.2

theorem fits_free (p : Path) : (free p).Fits p := ⟨rfl, check_of_sound (sound_free p)⟩

theorem Fits.grant (h : r.Fits p) (hm : m ≠ .free) (ha : r.Admits m) (hc : c ∉ r.owners) :
    (r.grant c m).Fits p :=
  ⟨h.1, check_of_sound (sound_grant h.sound hm ha hc)⟩

theorem Fits.without (h : r.Fits p) (hc : c ∈ r.owners) : (r.without c).Fits p :=
  ⟨h.1, check_of_sound (sound_without h.sound hc)⟩

end Record

namespace Slots

/-- Every entry has a record that fits its path. -/
def WellFormed (t : Slots) : Prop :=
  ∀ (p : Path) (x : Option Record), t[p]? = some x → ∃ r, x = some r ∧ r.Fits p

variable {t : Slots} {p : Path}

theorem WellFormed.fits (h : t.WellFormed) {r : Record} (hr : t.record? p = some r) :
    r.Fits p := by
  unfold record? at hr
  cases hp : t[p]? with
  | none =>
    rw [hp] at hr
    cases hr
  | some x =>
    obtain ⟨r', rfl, hf⟩ := h p x hp
    rw [hp] at hr
    cases hr
    exact hf

theorem WellFormed.sound (h : t.WellFormed) : t.Sound := fun _ _ hr => (h.fits hr).sound

theorem wellFormed_empty : (∅ : Slots).WellFormed := by
  intro p x hx
  simp at hx

/-- An empty slot leaves no entry. -/
theorem WellFormed.put (h : t.WellFormed) {o : Option Record} (ho : ∀ r, o = some r → r.Fits p) :
    (t.put p o).WellFormed := by
  intro q x hx
  cases o with
  | none =>
    simp only [Slots.put, Std.ExtTreeMap.getElem?_erase] at hx
    split at hx
    · cases hx
    · exact h q x hx
  | some r =>
    simp only [Slots.put, Std.ExtTreeMap.getElem?_insert, Std.LawfulEqCmp.compare_eq_iff_eq] at hx
    split at hx
    · rename_i e
      cases hx
      exact ⟨r, rfl, e ▸ ho r rfl⟩
    · exact h q x hx

theorem WellFormed.put_record? (h : t.WellFormed) (p : Path) :
    (t.put p (t.record? p)).WellFormed :=
  h.put fun _ hr => h.fits hr

theorem WellFormed.record?_eq_some_iff (h : t.WellFormed) {r : Record} :
    t.record? p = some r ↔ t[p]? = some (some r) := by
  unfold record?
  cases hp : t[p]? with
  | none => simp
  | some x =>
    obtain ⟨r', rfl, -⟩ := h p x hp
    simp

end Slots

namespace Locks

variable (n : Node) {l : Locks Cluster}

/-- The lock exists and its record is free; `d` is said to `c`, who would release it. -/
structure FreeRelease (l : Locks Cluster) (c : Client) (p : Path) (d : String) : Prop where
  stored : p ∈ l.store.contents
  free : ∃ r, l.slots[p]? = some (some r) ∧ r.mode = .free
  detail : d = "release by " ++ c ++ " reached a FREE lock"

theorem fits_here (h : l.slots.WellFormed) (p : Path) : (l.here p).Fits p := by
  unfold here
  cases hr : l.slots.record? p with
  | none => exact Record.fits_free p
  | some r => exact h.fits hr

/-- No call leaves an empty slot, a record of another path or one that fails its check. -/
theorem wellFormed_call (h : l.slots.WellFormed) (c : Client) (op : LockOp) :
    (l.call (Cluster.storeOf n) c op).2.slots.WellFormed := by
  have same := h.put_record?
  cases op with
  | openLock p =>
    simp only [call, openLock_eq]
    split
    · exact same p
    · split
      · exact h.put fun r hr => by cases hr; exact Record.fits_free p
      · exact same p
  | acquireLock p m =>
    have keep : (l.slots.put p (some (l.here p))).WellFormed := h.put fun r hr => by
      cases hr; exact fits_here h p
    simp only [call, acquire_eq n h.sound]
    split
    · rename_i hm
      split
      · split
        · exact keep
        · rename_i hc
          split
          · rename_i ha
            refine h.put fun r hr => ?_
            cases hr
            exact (fits_here h p).grant (by simpa [Mode.requestable] using hm) ha hc
          · exact keep
      · exact same p
    · exact h
  | releaseLock p =>
    simp only [call, release_eq n h.sound]
    split
    · split
      · exact h.put (by simp)
      · rename_i r hr
        have hf := h.fits hr
        split
        · exact h.put fun r' e => by cases e; exact hf
        · split
          · rename_i hc
            exact h.put fun r' e => by cases e; exact hf.without hc
          · exact h.put fun r' e => by cases e; exact hf
    · exact same p
  | deleteLock p =>
    simp only [call]
    by_cases hd : l.slots.Holds c p .exclusive ∧ p ∈ l.store.contents ∧ l.store.leads n = true
    · rw [delete_of_holds n hd.1 hd.2.1 hd.2.2]
      exact h.put (by simp)
    · obtain ⟨e, he⟩ := delete_of_not n hd
      rw [he]
      exact same p

/-- A call finds the table at odds with itself exactly if it releases a lock that exists and
is recorded as free. -/
theorem call_eq_invariant_iff (h : l.slots.WellFormed) (c : Client) (op : LockOp) (p : Path)
    (d : String) :
    (l.call (Cluster.storeOf n) c op).1 = .error (.lock (.invariant p d)) ↔
      op = .releaseLock p ∧ l.FreeRelease c p d := by
  cases op with
  | openLock q => simpa [call, map_eq_error_iff] using openLock_ne_lock n l q (.invariant p d)
  | acquireLock q m => simpa [call] using acquire_ne_invariant n h.sound c q m p d
  | deleteLock q => simpa [call, map_eq_error_iff] using delete_ne_invariant n l c q p d
  | releaseLock q =>
    simp only [call, map_eq_error_iff, release_eq n h.sound, LockOp.releaseLock.injEq]
    constructor
    · intro he
      split at he
      · rename_i hp
        split at he
        · simp at he
        · rename_i r hr
          split at he
          · rename_i hf
            obtain ⟨rfl, rfl⟩ : q = p ∧ _ = d := by simpa using he
            exact ⟨rfl, hp, ⟨r, h.record?_eq_some_iff.1 hr, hf⟩, rfl⟩
          · split at he <;> simp at he
      · simp at he
    · rintro ⟨rfl, hp, ⟨r, hr, hf⟩, rfl⟩
      have hr := h.record?_eq_some_iff.2 hr
      simp [hp, hr, hf]

end Locks

/-! ## Sessions -/

namespace Session

variable (n : Node) {s : Session} {l : Locks Cluster}

/-- A session's call calls the table at most once. -/
theorem call_eq_or (s : Session) (l : Locks Cluster) (op : LockOp) :
    (s.call (Cluster.storeOf n) l op).2.2 = l ∨
      (s.call (Cluster.storeOf n) l op).2.2 = (l.call (Cluster.storeOf n) s.client op).2 := by
  by_cases hs : s.ended = true
  · exact Or.inl (by rw [call_of_ended n hs])
  · cases op with
    | openLock p => exact Or.inr (by simp [call, openLock, whenLive, hs, Locks.call])
    | acquireLock p m =>
      simp only [call, acquire, whenLive, if_neg hs, Locks.call]
      split
      · exact Or.inl rfl
      · rcases l.acquire (Cluster.storeOf n) s.client p m with ⟨_ | _ | _, l'⟩ <;> exact Or.inr rfl
    | releaseLock p =>
      simp only [call, release, whenLive, if_neg hs, Locks.call]
      split
      · rcases l.release (Cluster.storeOf n) s.client p with ⟨_ | _, l'⟩ <;> exact Or.inr rfl
      · exact Or.inl rfl
    | deleteLock p =>
      simp only [call, delete, whenLive, if_neg hs, Locks.call]
      rcases l.delete (Cluster.storeOf n) s.client p with ⟨_ | _, l'⟩ <;> exact Or.inr rfl

theorem wellFormed_call (h : l.slots.WellFormed) (op : LockOp) :
    (s.call (Cluster.storeOf n) l op).2.2.slots.WellFormed := by
  rcases call_eq_or n s l op with e | e <;> rw [e]
  · exact h
  · exact Locks.wellFormed_call n h s.client op

theorem wellFormed_drain (c : Client) (ps : List Path) {l : Locks Cluster}
    (h : l.slots.WellFormed) : (drain (Cluster.storeOf n) c l ps).slots.WellFormed := by
  induction ps generalizing l with
  | nil => exact h
  | cons p ps ih =>
    rw [drain_cons]
    exact ih (Locks.wellFormed_call n h c (.releaseLock p))

theorem wellFormed_terminate (h : l.slots.WellFormed) :
    (s.terminate (Cluster.storeOf n) l).2.slots.WellFormed := by
  unfold terminate
  split
  · exact h
  · exact wellFormed_drain n s.client _ h

/-- Of a session's calls the same is true as of the table's. -/
theorem call_eq_invariant (h : l.slots.WellFormed) {op : LockOp} {p : Path} {d : String}
    (he : (s.call (Cluster.storeOf n) l op).1 = .error (.lock (.invariant p d))) :
    op = .releaseLock p ∧ p ∈ s.held ∧ l.FreeRelease s.client p d := by
  rcases call_eq_error n he with hr | ⟨hheld, ht⟩
  · cases hr
  · obtain ⟨rfl, hf⟩ := (Locks.call_eq_invariant_iff n h s.client op p d).1 ht
    exact ⟨rfl, hheld p rfl, hf⟩

end Session

end LockCell
