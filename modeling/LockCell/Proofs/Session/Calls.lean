import LockCell.Proofs.Lock.ReaderWriter
import LockCell.Session.Locks

/-
  LockCell.Proofs.Session.Calls — what the lock calls of one session do, and what its end
  does, over the store of a cell.

  `Calls` lists all that can come of it, with what it took: nothing changes, or a lock is
  made, taken, let go or deleted, or the session is closed. A call changes of the session
  only the list of locks (`call_eq_held`), and of the store only whether one path is there.
  Over a sound table every call comes to one of these (`calls_call`), and so does the end
  (`calls_terminate`): draining the list takes from the table those holds of the client
  whose locks exist, and no others (`holds_drain`).
-/

namespace LockCell

namespace Session

/-- Makes a lock call in a session; only an acquire can be answered with `false`. -/
def call {σ : Type} (S : Store σ) (s : Session) (l : Locks σ) :
    LockOp → Except Error Bool × Session × Locks σ
  | .openLock p =>
    let (r, s, l) := s.openLock S l p
    (r.map fun _ => true, s, l)
  | .acquireLock p m => s.acquire S l p m
  | .releaseLock p =>
    let (r, s, l) := s.release S l p
    (r.map fun _ => true, s, l)
  | .deleteLock p =>
    let (r, s, l) := s.delete S l p
    (r.map fun _ => true, s, l)

/-- What can come of a call, or of the end, of a session at the server `n`: the session, and
table and store, after it. -/
inductive Calls (n : Node) (s : Session) (l : Locks Cluster) : Session → Locks Cluster → Prop
  | same {l' : Locks Cluster} : l'.store = l.store →
      (∀ d q k, l'.slots.Holds d q k ↔ l.slots.Holds d q k) → Calls n s l s l'
  | opened {l' : Locks Cluster} (p : Path) : s.ended = false → p ∉ l.store.contents →
      l.store.leads n = true → l'.store.leader = l.store.leader →
      (∀ q, q ∈ l'.store.contents ↔ q ∈ l.store.contents ∨ q = p) →
      (∀ d q k, l'.slots.Holds d q k ↔ l.slots.Holds d q k ∧ q ≠ p) → Calls n s l s l'
  | acquired {l' : Locks Cluster} (p : Path) (m : Mode) : s.ended = false → p ∉ s.held →
      p ∈ l.store.contents → l.slots.Admits p m → l'.store = l.store →
      (∀ d q k, l'.slots.Holds d q k ↔ l.slots.Holds d q k ∨ d = s.client ∧ q = p ∧ k = m) →
      Calls n s l { s with held := s.held.insert p m } l'
  | released {l' : Locks Cluster} (p : Path) : s.ended = false → p ∈ s.held →
      l'.store = l.store →
      (∀ d q k, l'.slots.Holds d q k ↔ l.slots.Holds d q k ∧ ¬ (d = s.client ∧ q = p)) →
      Calls n s l { s with held := s.held.erase p } l'
  | deleted {l' : Locks Cluster} (p : Path) : s.ended = false →
      l.slots.Holds s.client p .exclusive → l.store.leads n = true →
      l'.store.leader = l.store.leader →
      (∀ q, q ∈ l'.store.contents ↔ q ∈ l.store.contents ∧ q ≠ p) →
      (∀ d q k, l'.slots.Holds d q k ↔ l.slots.Holds d q k ∧ q ≠ p) →
      Calls n s l { s with held := s.held.erase p } l'
  | closed {l' : Locks Cluster} : s.ended = false → l'.store = l.store →
      (∀ d q k, l'.slots.Holds d q k ↔
        l.slots.Holds d q k ∧ ¬ (d = s.client ∧ q ∈ s.held ∧ q ∈ l.store.contents)) →
      Calls n s l s.close l'

/-- Of the session a call changes the list of locks and nothing else. -/
theorem call_eq_held {σ : Type} (S : Store σ) (s : Session) (l : Locks σ) (op : LockOp) :
    (s.call S l op).2.1 = { s with held := (s.call S l op).2.1.held } := by
  by_cases hs : s.ended = true
  · cases op <;> simp only [call, openLock, acquire, release, delete, whenLive, if_pos hs]
  · cases op with
    | openLock p => simp only [call, openLock, whenLive, if_neg hs]
    | acquireLock p m =>
      simp only [call, acquire, whenLive, if_neg hs]
      repeat' split
      all_goals rfl
    | releaseLock p =>
      simp only [call, release, whenLive, if_neg hs]
      split
      · rcases l.release S s.client p with ⟨_ | _, l'⟩ <;> rfl
      · rfl
    | deleteLock p =>
      simp only [call, delete, whenLive, if_neg hs]
      rcases l.delete S s.client p with ⟨_ | _, l'⟩ <;> rfl

variable (n : Node) {s : Session} {l : Locks Cluster}

theorem call_of_ended (h : s.ended = true) (op : LockOp) :
    s.call (Cluster.storeOf n) l op = (.error (.sessionExpired s.client), s, l) := by
  cases op <;> simp [call, openLock, acquire, release, delete, whenLive, h, Except.map]

theorem calls_openLock (hs : s.ended = false) (p : Path) :
    s.Calls n l s (l.openLock (Cluster.storeOf n) p).2 := by
  by_cases hp : p ∉ l.store.contents ∧ l.store.leads n = true
  · refine .opened p hs hp.1 hp.2 (Locks.leader_openLock n l p) (fun q => ?_) (fun d q k => ?_)
    · rw [Locks.mem_openLock]
      simp [hp.2]
    · rw [Locks.holds_openLock]
      simp [hp.1, hp.2]
  · refine .same ?_ (fun d q k => ?_)
    · rw [Locks.openLock_eq]
      by_cases hc : p ∈ l.store.contents
      · simp [hc]
      · have hl : ¬ l.store.leads n = true := fun hl => hp ⟨hc, hl⟩
        simp [hc, hl]
    · rw [Locks.holds_openLock]
      constructor
      · exact And.left
      · exact fun hd => ⟨hd, fun hn => hp ⟨hn.1, hn.2.1⟩⟩

theorem calls_acquire (h : l.slots.Sound) (hs : s.ended = false) (p : Path) (m : Mode) :
    s.Calls n l (s.acquire (Cluster.storeOf n) l p m).2.1
      (s.acquire (Cluster.storeOf n) l p m).2.2 := by
  have hstore := Locks.store_acquire n h s.client p m
  have hholds := fun d q k => Locks.holds_acquire n h s.client d p q m k
  have hok := Locks.acquire_eq_true_iff n h s.client p m
  unfold acquire whenLive
  rw [if_neg (by simp [hs])]
  by_cases hp : p ∈ s.held
  · rw [if_pos hp]
    exact .same rfl fun d q k => Iff.rfl
  · rw [if_neg hp]
    revert hstore hholds hok
    rcases l.acquire (Cluster.storeOf n) s.client p m with ⟨e | b, l'⟩ <;>
      intro hstore hholds hok
    · exact .same hstore (by simpa using hholds)
    · cases b with
      | false => exact .same hstore (by simpa using hholds)
      | true =>
        obtain ⟨-, hc, -, ha⟩ := hok.1 rfl
        exact .acquired p m hs hp hc ha hstore (by simpa using hholds)

theorem calls_release (h : l.slots.Sound) (hs : s.ended = false) (p : Path) :
    s.Calls n l (s.release (Cluster.storeOf n) l p).2.1
      (s.release (Cluster.storeOf n) l p).2.2 := by
  have hstore := Locks.store_release n h s.client p
  have hholds := fun d q k => Locks.holds_release n h s.client d p q k
  have hok := Locks.release_eq_ok_iff n h s.client p
  unfold release whenLive
  rw [if_neg (by simp [hs])]
  by_cases hp : p ∈ s.held
  · rw [if_pos hp]
    revert hstore hholds hok
    rcases l.release (Cluster.storeOf n) s.client p with ⟨e | ⟨⟩, l'⟩ <;>
      intro hstore hholds hok
    · -- a refused release had nothing to take
      refine .same hstore fun d q k => (hholds d q k).trans ⟨And.left, fun hd => ⟨hd, ?_⟩⟩
      intro hx
      obtain ⟨hc, rfl, rfl⟩ := hx
      cases hok.2 ⟨hc, k, hd⟩
    · obtain ⟨hc, -⟩ := hok.1 rfl
      exact .released p hs hp hstore (by simpa [hc] using hholds)
  · rw [if_neg hp]
    exact .same rfl fun d q k => Iff.rfl

theorem calls_delete (hs : s.ended = false) (p : Path) :
    s.Calls n l (s.delete (Cluster.storeOf n) l p).2.1
      (s.delete (Cluster.storeOf n) l p).2.2 := by
  have hmem := Locks.mem_delete n (l := l) s.client p
  have hlead := Locks.leader_delete n (l := l) s.client p
  have hholds := fun d q k => Locks.holds_delete n (l := l) s.client d p q k
  have hok := Locks.delete_eq_ok_iff n (l := l) s.client p
  have hsame : ¬ (l.delete (Cluster.storeOf n) s.client p).1 = .ok () →
      (l.delete (Cluster.storeOf n) s.client p).2.store = l.store := fun he => by
    obtain ⟨e, hd⟩ := Locks.delete_of_not n (fun hd => he (hok.2 hd))
    rw [hd]
  unfold delete whenLive
  rw [if_neg (by simp [hs])]
  revert hmem hlead hholds hok hsame
  rcases l.delete (Cluster.storeOf n) s.client p with ⟨e | ⟨⟩, l'⟩ <;>
    intro hmem hlead hholds hok hsame
  · exact .same (hsame (by simp)) (by simpa using hholds)
  · obtain ⟨hc, -, hl⟩ := hok.1 rfl
    exact .deleted p hs hc hl hlead (by simpa using hmem) (by simpa using hholds)

theorem calls_call (h : l.slots.Sound) (op : LockOp) :
    s.Calls n l (s.call (Cluster.storeOf n) l op).2.1 (s.call (Cluster.storeOf n) l op).2.2 := by
  cases hs : s.ended with
  | true =>
    rw [call_of_ended n hs]
    exact .same rfl fun d q k => Iff.rfl
  | false =>
    cases op with
    | openLock p =>
      have hc := calls_openLock n (l := l) hs p
      simpa [call, openLock, whenLive, hs] using hc
    | acquireLock p m => exact calls_acquire n h hs p m
    | releaseLock p => exact calls_release n h hs p
    | deleteLock p => exact calls_delete n hs p

theorem sound_call (h : l.slots.Sound) (op : LockOp) :
    (s.call (Cluster.storeOf n) l op).2.2.slots.Sound := by
  cases hs : s.ended with
  | true =>
    rw [call_of_ended n hs]
    exact h
  | false =>
    cases op with
    | openLock p =>
      have ho := Locks.sound_openLock n h p
      simpa [call, openLock, whenLive, hs] using ho
    | acquireLock p m =>
      have ha := Locks.sound_acquire n h s.client p m
      simp only [call, acquire, whenLive, hs, Bool.false_eq_true, if_false]
      split
      · exact h
      · revert ha
        rcases l.acquire (Cluster.storeOf n) s.client p m with ⟨_ | _ | _, l'⟩ <;> exact id
    | releaseLock p =>
      have hr := Locks.sound_release n h s.client p
      simp only [call, release, whenLive, hs, Bool.false_eq_true, if_false]
      split
      · revert hr
        rcases l.release (Cluster.storeOf n) s.client p with ⟨_ | _, l'⟩ <;> exact id
      · exact h
    | deleteLock p =>
      have hd := Locks.sound_delete n h s.client p
      simp only [call, delete, whenLive, hs, Bool.false_eq_true, if_false]
      revert hd
      rcases l.delete (Cluster.storeOf n) s.client p with ⟨_ | _, l'⟩ <;> exact id

/-- A session's own answer to a call, for which the table is not asked. -/
inductive Refuses (s : Session) : Error → Prop
  | expired : Refuses s (.sessionExpired s.client)
  | alreadyOwned (p : Path) : Refuses s (.lock (.alreadyOwned s.client p))
  | notOwned (p : Path) : Refuses s (.lock (.notOwned s.client p))

/-- A call fails in the session or in the table, which is asked to release only what the session
lists. -/
theorem call_eq_error {op : LockOp} {e : Error}
    (he : (s.call (Cluster.storeOf n) l op).1 = .error e) :
    s.Refuses e ∨ (∀ p, op = .releaseLock p → p ∈ s.held) ∧
      (l.call (Cluster.storeOf n) s.client op).1 = .error e := by
  by_cases hs : s.ended = true
  · rw [call_of_ended n hs] at he
    cases he
    exact Or.inl .expired
  · cases op with
    | openLock p =>
      refine Or.inr ⟨by simp, ?_⟩
      simpa only [call, openLock, whenLive, if_neg hs, Locks.call] using he
    | acquireLock p m =>
      simp only [call, acquire, whenLive, if_neg hs] at he
      split at he
      · cases he
        exact Or.inl (.alreadyOwned p)
      · refine Or.inr ⟨by simp, ?_⟩
        revert he
        simp only [Locks.call]
        rcases l.acquire (Cluster.storeOf n) s.client p m with ⟨_ | _ | _, l'⟩ <;> exact id
    | releaseLock p =>
      simp only [call, release, whenLive, if_neg hs] at he
      split at he
      · rename_i hp
        refine Or.inr ⟨fun q hq => LockOp.releaseLock.inj hq ▸ hp, ?_⟩
        revert he
        simp only [Locks.call]
        rcases l.release (Cluster.storeOf n) s.client p with ⟨_ | _, l'⟩ <;> exact id
      · cases he
        exact Or.inl (.notOwned p)
    | deleteLock p =>
      refine Or.inr ⟨by simp, ?_⟩
      simp only [call, delete, whenLive, if_neg hs] at he
      revert he
      simp only [Locks.call]
      rcases l.delete (Cluster.storeOf n) s.client p with ⟨_ | _, l'⟩ <;> exact id

/-- If the table has what is on the session's list, no call finds the table at odds with
itself. -/
theorem call_ne_invariant (h : l.slots.Sound)
    (hb : ∀ p, p ∈ s.held → ∃ m, l.slots.Holds s.client p m) (op : LockOp) (q : Path)
    (d : String) :
    (s.call (Cluster.storeOf n) l op).1 ≠ .error (.lock (.invariant q d)) := by
  intro he
  rcases call_eq_error n he with hr | ⟨hheld, ht⟩
  · cases hr
  · cases op with
    | openLock p => exact Locks.openLock_ne_lock n l p _ (map_eq_error_iff.1 ht)
    | acquireLock p m => exact Locks.acquire_ne_invariant n h s.client p m q d ht
    | releaseLock p =>
      obtain ⟨m, hm⟩ := hb p (hheld p rfl)
      exact Locks.release_ne_invariant n h hm q d (map_eq_error_iff.1 ht)
    | deleteLock p => exact Locks.delete_ne_invariant n l s.client p q d (map_eq_error_iff.1 ht)

/-! ## The end of a session -/

theorem drain_cons (S : Store Cluster) (c : Client) (l : Locks Cluster) (p : Path)
    (ps : List Path) : drain S c l (p :: ps) = drain S c (l.release S c p).2 ps := rfl

theorem sound_drain (c : Client) (ps : List Path) {l : Locks Cluster} (h : l.slots.Sound) :
    (drain (Cluster.storeOf n) c l ps).slots.Sound := by
  induction ps generalizing l with
  | nil => exact h
  | cons p ps ih =>
    rw [drain_cons]
    exact ih (Locks.sound_release n h c p)

theorem store_drain (c : Client) (ps : List Path) {l : Locks Cluster} (h : l.slots.Sound) :
    (drain (Cluster.storeOf n) c l ps).store = l.store := by
  induction ps generalizing l with
  | nil => rfl
  | cons p ps ih =>
    rw [drain_cons, ih (Locks.sound_release n h c p), Locks.store_release n h]

/-- Of the client's holds those listed go, if their locks exist; all others stay. -/
theorem holds_drain (c : Client) (ps : List Path) {l : Locks Cluster} (h : l.slots.Sound)
    (d : Client) (q : Path) (k : Mode) :
    (drain (Cluster.storeOf n) c l ps).slots.Holds d q k ↔
      l.slots.Holds d q k ∧ ¬ (d = c ∧ q ∈ ps ∧ q ∈ l.store.contents) := by
  induction ps generalizing l with
  | nil => simp [drain]
  | cons p ps ih =>
    rw [drain_cons, ih (Locks.sound_release n h c p), Locks.store_release n h,
      Locks.holds_release n h, and_assoc]
    refine and_congr_right fun _ => ?_
    constructor
    · rintro ⟨hp, hps⟩ ⟨rfl, hq, hc⟩
      rcases List.mem_cons.1 hq with rfl | hq
      · exact hp ⟨hc, rfl, rfl⟩
      · exact hps ⟨rfl, hq, hc⟩
    · intro hn
      refine ⟨?_, ?_⟩
      · intro hx
        obtain ⟨hc, rfl, rfl⟩ := hx
        exact hn ⟨rfl, List.mem_cons_self, hc⟩
      · intro he
        obtain ⟨rfl, hq, hc⟩ := he
        exact hn ⟨rfl, List.mem_cons_of_mem _ hq, hc⟩

theorem calls_terminate (h : l.slots.Sound) :
    s.Calls n l (s.terminate (Cluster.storeOf n) l).1 (s.terminate (Cluster.storeOf n) l).2 := by
  unfold terminate
  split
  · exact .same rfl fun d q k => Iff.rfl
  · rename_i hs
    refine .closed (by simpa using hs) (store_drain n s.client _ h) fun d q k => ?_
    rw [holds_drain n s.client _ h, Std.ExtTreeMap.mem_keys]

theorem sound_terminate (h : l.slots.Sound) :
    (s.terminate (Cluster.storeOf n) l).2.slots.Sound := by
  unfold terminate
  split
  · exact h
  · exact sound_drain n s.client _ h

end Session

end LockCell
