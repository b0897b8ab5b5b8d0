import LockCell.Cluster
import LockCell.Proofs.Lock.Holds

/-
  LockCell.Proofs.Lock.Operations — the four operations of a lock table over the store of
  a cell, as seen by the server `n`.

  Each operation is written out once as a choice between outcomes (`acquire_eq`,
  `release_eq`, `delete_eq`, `openLock_eq`). From that follow, for a sound table,
  - when it succeeds (`acquire_eq_true_iff`, `acquire_eq_false_iff`, `release_eq_ok_iff`,
    `delete_eq_ok_iff`, `openLock_eq_ok_iff`);
  - what it does to the holds (`holds_acquire`, `holds_release`, `holds_delete`,
    `holds_openLock`);
  - what it does to the store: an acquire and a release nothing, a delete and an open one
    command at most (`store_acquire`, `store_release`, `mem_delete`, `mem_openLock`);
  - that the table stays sound.
  Nothing after this module looks into a record.
-/

namespace LockCell

theorem map_eq_error_iff {α β : Type} {f : α → β} {r : Except Error α} {e : Error} :
    r.map f = .error e ↔ r = .error e := by
  cases r <;> simp [Except.map]

/-! ## The store -/

namespace Cluster

theorem has_storeOf (n : Node) (k : Cluster) (p : Path) :
    (storeOf n).has k p = .ok (decide (p ∈ k.contents)) := by
  simp only [storeOf, Store.has, Except.map]
  by_cases h : p ∈ k.contents <;> simp [h]

theorem set_storeOf (n : Node) (k : Cluster) (p : Path) (b : Bytes) :
    (storeOf n).set k p b = if k.leads n then .ok (k.commit (.set p b)) else .error k.refusal :=
  rfl

theorem delete_storeOf (n : Node) (k : Cluster) (p : Path) :
    (storeOf n).delete k p = if k.leads n then .ok (k.commit (.delete p)) else .error k.refusal :=
  rfl

theorem leads_of_leader_eq {k k' : Cluster} (h : k'.leader = k.leader) (n : Node) :
    k'.leads n = k.leads n := by
  unfold leads
  rw [h]

@[simp] theorem leads_commit (k : Cluster) (x : Command) (n : Node) :
    (k.commit x).leads n = k.leads n := rfl

theorem mem_commit_set (k : Cluster) (p q : Path) (b : Bytes) :
    q ∈ (k.commit (.set p b)).contents ↔ q = p ∨ q ∈ k.contents := by
  simp [commit, Contents.run, eq_comm (a := q)]

theorem mem_commit_delete (k : Cluster) (p q : Path) :
    q ∈ (k.commit (.delete p)).contents ↔ q ≠ p ∧ q ∈ k.contents := by
  simp [commit, Contents.run, eq_comm (a := q)]

end Cluster

/-! ## The operations -/

namespace Locks

variable (n : Node) {l : Locks Cluster}

@[simp] theorem inSlot_fst {α : Type} (l : Locks Cluster) (p : Path)
    (f : Option Record → Except Error α × Option Record × Cluster) :
    (l.inSlot p f).1 = (f (l.slots.record? p)).1 := rfl

@[simp] theorem inSlot_store {α : Type} (l : Locks Cluster) (p : Path)
    (f : Option Record → Except Error α × Option Record × Cluster) :
    (l.inSlot p f).2.store = (f (l.slots.record? p)).2.2 := rfl

@[simp] theorem inSlot_record? {α : Type} (l : Locks Cluster) (p q : Path)
    (f : Option Record → Except Error α × Option Record × Cluster) :
    (l.inSlot p f).2.slots.record? q =
      if q = p then (f (l.slots.record? p)).2.1 else l.slots.record? q :=
  l.slots.record?_put p q _

/-- The record that an acquire finds, made if need be. -/
def here (l : Locks Cluster) (p : Path) : Record := (l.slots.record? p).getD (.free p)

theorem sound_here (h : l.slots.Sound) (p : Path) : (l.here p).Sound := by
  unfold here
  cases hr : l.slots.record? p with
  | none => exact Record.sound_free p
  | some r => exact h p r hr

theorem mem_here (c : Client) (p : Path) :
    c ∈ (l.here p).owners ↔ l.slots.Holds c p (l.here p).mode := by
  unfold here Slots.Holds
  cases hr : l.slots.record? p with
  | none => simp [Record.free]
  | some r => simp

theorem mode_here {c : Client} {p : Path} {m : Mode} (h : l.slots.Holds c p m) :
    (l.here p).mode = m := by
  obtain ⟨r, hr, -, hm⟩ := h
  simp [here, hr, hm]

theorem admits_here (h : l.slots.Sound) (p : Path) (m : Mode) :
    (l.here p).Admits m ↔ l.slots.Admits p m := by
  constructor
  · intro hx
    rcases hx with hf | ⟨hm, rfl⟩
    · left
      intro c k hc
      exact hc.ne_free h ((mode_here hc).symm.trans hf)
    · right
      exact ⟨rfl, fun c k hc => (mode_here hc).symm.trans hm⟩
  · intro ha
    by_cases hf : (l.here p).mode = .free
    · exact Or.inl hf
    · obtain ⟨c, hc⟩ := Record.exists_mem_of_not_free (sound_here h p) hf
      have hc := (mem_here c p).1 hc
      rcases ha with hn | ⟨rfl, hall⟩
      · exact absurd hc (hn c _)
      · exact Or.inr ⟨hall c _ hc, rfl⟩

/-! ### Acquiring -/

theorem acquire_eq (h : l.slots.Sound) (c : Client) (p : Path) (m : Mode) :
    l.acquire (Cluster.storeOf n) c p m =
      if m.requestable then
        if p ∈ l.store.contents then
          if c ∈ (l.here p).owners then
            (.error (.lock (.alreadyOwned c p)), ⟨l.slots.put p (some (l.here p)), l.store⟩)
          else if (l.here p).Admits m then
            (.ok true, ⟨l.slots.put p (some ((l.here p).grant c m)), l.store⟩)
          else (.ok false, ⟨l.slots.put p (some (l.here p)), l.store⟩)
        else
          (.error (.lock (.notOpened p)), ⟨l.slots.put p (l.slots.record? p), l.store⟩)
      else (.error (.lock (.invalidMode m)), l) := by
  have e := Record.acquire_of_sound (sound_here h p) c p m
  simp only [here] at e
  simp only [acquire, inSlot, Cluster.has_storeOf, here, e, Record.ownedBy_iff]
  by_cases hp : p ∈ l.store.contents
  · simp only [hp, decide_true, if_true]
    split <;> rename_i hm
    · by_cases hc : c ∈ ((l.slots.record? p).getD (.free p)).owners
      · simp only [hc, if_true]
      · by_cases ha : ((l.slots.record? p).getD (.free p)).Admits m
        · simp only [hc, ha, if_true, if_false]
        · simp only [hc, ha, if_false]
    · rfl
  · simp only [hp, decide_false, if_false]

theorem holds_put_here (c : Client) (p q : Path) (m : Mode) :
    (l.slots.put p (some (l.here p))).Holds c q m ↔ l.slots.Holds c q m := by
  rw [Slots.holds_put]
  split
  · rename_i e
    rw [e]
    constructor
    · intro hx
      obtain ⟨r, hr, hc, rfl⟩ := hx
      cases hr
      exact (mem_here c p).1 hc
    · intro hc
      have hm := mode_here hc
      subst hm
      exact ⟨_, rfl, (mem_here c p).2 hc, rfl⟩
  · rfl

theorem holds_put_grant (h : l.slots.Sound) {c : Client} {p : Path} {m : Mode}
    (ha : (l.here p).Admits m) (d : Client) (q : Path) (k : Mode) :
    (l.slots.put p (some ((l.here p).grant c m))).Holds d q k ↔
      l.slots.Holds d q k ∨ d = c ∧ q = p ∧ k = m := by
  -- whoever held the lock before held it in the mode `m` already
  have old : ∀ d k, l.slots.Holds d p k → k = m := fun d k hd => by
    have hk := mode_here hd
    rcases ha with hf | ⟨hs, rfl⟩
    · exact absurd (hk.symm.trans hf) (hd.ne_free h)
    · exact hk.symm.trans hs
  rw [Slots.holds_put]
  by_cases e : q = p
  · subst e
    rw [if_pos rfl]
    constructor
    · intro hx
      obtain ⟨r, hr, hd, rfl⟩ := hx
      cases hr
      rcases (Record.mem_grant _ _ _ _).1 hd with rfl | hd
      · exact Or.inr ⟨rfl, rfl, rfl⟩
      · have hd := (mem_here d q).1 hd
        rw [old d _ hd] at hd
        exact Or.inl hd
    · intro he
      rcases he with hd | ⟨rfl, -, rfl⟩
      · refine ⟨_, rfl, (Record.mem_grant _ _ _ _).2 (Or.inr ?_), (old d k hd).symm⟩
        have hk := mode_here hd
        subst hk
        exact (mem_here d q).2 hd
      · exact ⟨_, rfl, (Record.mem_grant _ _ _ _).2 (Or.inl rfl), rfl⟩
  · rw [if_neg e]
    simp [e]

theorem mem_here_iff (c : Client) (p : Path) :
    c ∈ (l.here p).owners ↔ ∃ k, l.slots.Holds c p k := by
  constructor
  · intro hc
    exact ⟨_, (mem_here c p).1 hc⟩
  · intro hx
    obtain ⟨k, hc⟩ := hx
    have hm := mode_here hc
    subst hm
    exact (mem_here c p).2 hc

theorem acquire_eq_true_iff (h : l.slots.Sound) (c : Client) (p : Path) (m : Mode) :
    (l.acquire (Cluster.storeOf n) c p m).1 = .ok true ↔
      m.requestable = true ∧ p ∈ l.store.contents ∧ (∀ k, ¬ l.slots.Holds c p k) ∧
        l.slots.Admits p m := by
  rw [acquire_eq n h, ← not_exists, ← mem_here_iff, ← admits_here h]
  repeat' split
  all_goals simp_all

theorem acquire_eq_false_iff (h : l.slots.Sound) (c : Client) (p : Path) (m : Mode) :
    (l.acquire (Cluster.storeOf n) c p m).1 = .ok false ↔
      m.requestable = true ∧ p ∈ l.store.contents ∧ (∀ k, ¬ l.slots.Holds c p k) ∧
        ¬ l.slots.Admits p m := by
  rw [acquire_eq n h, ← not_exists, ← mem_here_iff, ← admits_here h]
  repeat' split
  all_goals simp_all

theorem acquire_ne_alreadyOwned (h : l.slots.Sound) {c : Client} {p : Path}
    (hc : ∀ k, ¬ l.slots.Holds c p k) (m : Mode) (d : Client) (q : Path) :
    (l.acquire (Cluster.storeOf n) c p m).1 ≠ .error (.lock (.alreadyOwned d q)) := by
  rw [← not_exists, ← mem_here_iff] at hc
  rw [acquire_eq n h, if_neg hc]
  repeat' split
  all_goals simp

/-- A sound table never contradicts itself in an acquire. -/
theorem acquire_ne_invariant (h : l.slots.Sound) (c : Client) (p : Path) (m : Mode) (q : Path)
    (d : String) :
    (l.acquire (Cluster.storeOf n) c p m).1 ≠ .error (.lock (.invariant q d)) := by
  rw [acquire_eq n h]
  repeat' split
  all_goals simp

@[simp] theorem store_acquire (h : l.slots.Sound) (c : Client) (p : Path) (m : Mode) :
    (l.acquire (Cluster.storeOf n) c p m).2.store = l.store := by
  rw [acquire_eq n h]
  repeat' split
  all_goals rfl

theorem sound_acquire (h : l.slots.Sound) (c : Client) (p : Path) (m : Mode) :
    (l.acquire (Cluster.storeOf n) c p m).2.slots.Sound := by
  have keep : (l.slots.put p (some (l.here p))).Sound := h.put fun r hr => by
    cases hr; exact sound_here h p
  rw [acquire_eq n h]
  split
  · rename_i hm
    split
    · split
      · exact keep
      · rename_i hc
        split
        · rename_i ha
          refine h.put fun r hr => ?_
          cases hr
          exact Record.sound_grant (sound_here h p) (by simpa [Mode.requestable] using hm) ha hc
        · exact keep
    · exact h.put (h p)
  · exact h

theorem holds_acquire (h : l.slots.Sound) (c d : Client) (p q : Path) (m k : Mode) :
    (l.acquire (Cluster.storeOf n) c p m).2.slots.Holds d q k ↔
      l.slots.Holds d q k ∨
        (l.acquire (Cluster.storeOf n) c p m).1 = .ok true ∧ d = c ∧ q = p ∧ k = m := by
  rw [acquire_eq n h]
  split
  · split
    · split
      · simp [holds_put_here]
      · split
        · rename_i hc ha
          simp [holds_put_grant h ha]
        · simp [holds_put_here]
    · simp [Slots.holds_put_record?]
  · simp

/-! ### Releasing and deleting -/

theorem release_eq (h : l.slots.Sound) (c : Client) (p : Path) :
    l.release (Cluster.storeOf n) c p =
      if p ∈ l.store.contents then
        match l.slots.record? p with
        | none => (.error (.lock (.notOwned c p)), ⟨l.slots.put p none, l.store⟩)
        | some r =>
          if r.mode = .free then
            (.error (.lock (.invariant p ("release by " ++ c ++ " reached a FREE lock"))),
              ⟨l.slots.put p (some r), l.store⟩)
          else if c ∈ r.owners then (.ok (), ⟨l.slots.put p (some (r.without c)), l.store⟩)
          else (.error (.lock (.notOwned c p)), ⟨l.slots.put p (some r), l.store⟩)
      else (.error (.lock (.notOpened p)), ⟨l.slots.put p (l.slots.record? p), l.store⟩) := by
  simp only [release, inSlot, Cluster.has_storeOf]
  by_cases hp : p ∈ l.store.contents
  · simp only [hp, decide_true, if_true]
    cases hr : l.slots.record? p with
    | none => rfl
    | some r =>
      simp only [Record.release_of_sound (h p r hr), Record.ownedBy_iff]
      by_cases hf : r.mode = .free
      · simp only [hf, if_true]
      · by_cases hc : c ∈ r.owners
        · simp only [hf, hc, if_true, if_false]
        · simp only [hf, hc, if_false]
  · simp only [hp, decide_false, if_false]

theorem delete_eq (l : Locks Cluster) (c : Client) (p : Path) :
    l.delete (Cluster.storeOf n) c p =
      match (l.slots.record? p).filter (·.ownedBy c) with
      | none =>
        (.error (.lock (.notOwned c p)), ⟨l.slots.put p (l.slots.record? p), l.store⟩)
      | some r =>
        if r.mode = .exclusive then
          if p ∈ l.store.contents then
            if l.store.leads n then
              (.ok (), ⟨l.slots.put p none, l.store.commit (.delete p)⟩)
            else (.error l.store.refusal, ⟨l.slots.put p (l.slots.record? p), l.store⟩)
          else
            (.error (.lock (.notOpened p)), ⟨l.slots.put p (l.slots.record? p), l.store⟩)
        else
          (.error (.lock (.notExclusive c p)),
            ⟨l.slots.put p (l.slots.record? p), l.store⟩) := by
  simp only [delete, inSlot, Cluster.has_storeOf, Cluster.delete_storeOf]
  cases (l.slots.record? p).filter (·.ownedBy c) with
  | none => rfl
  | some r =>
    by_cases hm : r.mode = .exclusive
    · by_cases hp : p ∈ l.store.contents
      · by_cases hl : l.store.leads n = true
        · simp only [hm, hp, hl, decide_true, if_true]
        · simp only [hm, hp, hl, decide_true, if_true]; rfl
      · simp only [hm, hp, decide_false, if_true, if_false]
    · simp only [hm, if_false]

theorem release_eq_ok_iff (h : l.slots.Sound) (c : Client) (p : Path) :
    (l.release (Cluster.storeOf n) c p).1 = .ok () ↔
      p ∈ l.store.contents ∧ ∃ k, l.slots.Holds c p k := by
  rw [release_eq n h]
  by_cases hp : p ∈ l.store.contents
  · rw [if_pos hp]
    cases hr : l.slots.record? p with
    | none => simp [Slots.Holds, hr]
    | some r =>
      by_cases hc : c ∈ r.owners
      · simp [Slots.Holds, hr, hc, hp, Record.not_free_of_mem (h p r hr) hc]
      · by_cases hf : r.mode = .free <;> simp [Slots.Holds, hr, hc, hf]
  · simp [hp]

@[simp] theorem store_release (h : l.slots.Sound) (c : Client) (p : Path) :
    (l.release (Cluster.storeOf n) c p).2.store = l.store := by
  rw [release_eq n h]
  repeat' split
  all_goals rfl

theorem sound_release (h : l.slots.Sound) (c : Client) (p : Path) :
    (l.release (Cluster.storeOf n) c p).2.slots.Sound := by
  rw [release_eq n h]
  split
  · split
    · exact h.put (by simp)
    · rename_i r hr
      have hs := h p r hr
      split
      · exact h.put fun r' e => by cases e; exact hs
      · split
        · rename_i hc
          exact h.put fun r' e => by cases e; exact Record.sound_without hs hc
        · exact h.put fun r' e => by cases e; exact hs
  · exact h.put (h p)

theorem holds_release (h : l.slots.Sound) (c d : Client) (p q : Path) (k : Mode) :
    (l.release (Cluster.storeOf n) c p).2.slots.Holds d q k ↔
      l.slots.Holds d q k ∧ ¬ (p ∈ l.store.contents ∧ d = c ∧ q = p) := by
  by_cases hc : p ∈ l.store.contents ∧ ∃ k, l.slots.Holds c p k
  · obtain ⟨hp, k', r, hr, hm, rfl⟩ := hc
    have hf := Record.not_free_of_mem (h p r hr) hm
    simp [release_eq n h, hp, hr, hm, hf, Slots.holds_put_without hr]
  · -- nothing changes, and nothing was to be given up
    have keep : (l.release (Cluster.storeOf n) c p).2.slots = l.slots.put p (l.slots.record? p) := by
      have hok := mt (release_eq_ok_iff n h c p).1 hc
      rw [release_eq n h] at hok ⊢
      repeat' split at hok
      all_goals simp_all
    rw [keep, Slots.holds_put_record?]
    constructor
    · intro hd
      refine ⟨hd, ?_⟩
      intro hx
      obtain ⟨hp, rfl, rfl⟩ := hx
      exact hc ⟨hp, k, hd⟩
    · exact And.left

/-- A record that names an owner is not free, so its release cannot contradict it. -/
theorem release_ne_invariant (h : l.slots.Sound) {c : Client} {p : Path} {m : Mode}
    (hc : l.slots.Holds c p m) (q : Path) (d : String) :
    (l.release (Cluster.storeOf n) c p).1 ≠ .error (.lock (.invariant q d)) := by
  obtain ⟨r, hr, ho, -⟩ := hc
  have hf := Record.not_free_of_mem (h p r hr) ho
  rw [release_eq n h, hr]
  split
  · simp [hf, ho]
  · simp

theorem delete_ne_invariant (l : Locks Cluster) (c : Client) (p q : Path) (d : String) :
    (l.delete (Cluster.storeOf n) c p).1 ≠ .error (.lock (.invariant q d)) := by
  rw [delete_eq]
  repeat' split
  all_goals simp [Cluster.refusal]

theorem delete_of_holds {c : Client} {p : Path} (hc : l.slots.Holds c p .exclusive)
    (hp : p ∈ l.store.contents) (hl : l.store.leads n = true) :
    l.delete (Cluster.storeOf n) c p =
      (.ok (), ⟨l.slots.put p none, l.store.commit (.delete p)⟩) := by
  obtain ⟨r, hr, ho, hm⟩ := hc
  have hf : (l.slots.record? p).filter (·.ownedBy c) = some r := by
    rw [hr, Option.filter_some, if_pos ((Record.ownedBy_iff r c).2 ho)]
  rw [delete_eq, hf]
  simp [hm, hp, hl]

theorem delete_of_not {c : Client} {p : Path}
    (hn : ¬ (l.slots.Holds c p .exclusive ∧ p ∈ l.store.contents ∧ l.store.leads n = true)) :
    ∃ e, l.delete (Cluster.storeOf n) c p =
      (.error e, ⟨l.slots.put p (l.slots.record? p), l.store⟩) := by
  rw [delete_eq]
  cases hf : (l.slots.record? p).filter (·.ownedBy c) with
  | none => exact ⟨_, rfl⟩
  | some r =>
    obtain ⟨hr, ho⟩ := Option.filter_eq_some_iff.1 hf
    by_cases hm : r.mode = .exclusive
    · have hc : l.slots.Holds c p .exclusive := ⟨r, hr, (Record.ownedBy_iff r c).1 ho, hm⟩
      by_cases hp : p ∈ l.store.contents
      · have hl : ¬ l.store.leads n = true := fun hl => hn ⟨hc, hp, hl⟩
        exact ⟨l.store.refusal, by simp [hm, hp, hl]⟩
      · exact ⟨.lock (.notOpened p), by simp [hm, hp]⟩
    · exact ⟨.lock (.notExclusive c p), by simp [hm]⟩

theorem delete_eq_ok_iff (c : Client) (p : Path) :
    (l.delete (Cluster.storeOf n) c p).1 = .ok () ↔
      l.slots.Holds c p .exclusive ∧ p ∈ l.store.contents ∧ l.store.leads n = true := by
  constructor
  · intro hok
    by_cases hd : l.slots.Holds c p .exclusive ∧ p ∈ l.store.contents ∧ l.store.leads n = true
    · exact hd
    · obtain ⟨e, he⟩ := delete_of_not n hd
      rw [he] at hok
      cases hok
  · intro hx
    obtain ⟨hc, hp, hl⟩ := hx
    rw [delete_of_holds n hc hp hl]

theorem sound_delete (h : l.slots.Sound) (c : Client) (p : Path) :
    (l.delete (Cluster.storeOf n) c p).2.slots.Sound := by
  by_cases hd : l.slots.Holds c p .exclusive ∧ p ∈ l.store.contents ∧ l.store.leads n = true
  · rw [delete_of_holds n hd.1 hd.2.1 hd.2.2]
    exact h.put (by simp)
  · obtain ⟨e, he⟩ := delete_of_not n hd
    rw [he]
    exact h.put (h p)

theorem holds_delete (c d : Client) (p q : Path) (k : Mode) :
    (l.delete (Cluster.storeOf n) c p).2.slots.Holds d q k ↔
      l.slots.Holds d q k ∧ ¬ ((l.delete (Cluster.storeOf n) c p).1 = .ok () ∧ q = p) := by
  by_cases hd : l.slots.Holds c p .exclusive ∧ p ∈ l.store.contents ∧ l.store.leads n = true
  · rw [delete_of_holds n hd.1 hd.2.1 hd.2.2, Slots.holds_put]
    by_cases e : q = p <;> simp [e]
  · obtain ⟨e, he⟩ := delete_of_not n hd
    simp [he, Slots.holds_put_record?]

theorem mem_delete (c : Client) (p q : Path) :
    q ∈ (l.delete (Cluster.storeOf n) c p).2.store.contents ↔
      q ∈ l.store.contents ∧ ¬ ((l.delete (Cluster.storeOf n) c p).1 = .ok () ∧ q = p) := by
  by_cases hd : l.slots.Holds c p .exclusive ∧ p ∈ l.store.contents ∧ l.store.leads n = true
  · rw [delete_of_holds n hd.1 hd.2.1 hd.2.2, Cluster.mem_commit_delete]
    simp [and_comm]
  · obtain ⟨e, he⟩ := delete_of_not n hd
    simp [he]

@[simp] theorem leader_delete (c : Client) (p : Path) :
    (l.delete (Cluster.storeOf n) c p).2.store.leader = l.store.leader := by
  by_cases hd : l.slots.Holds c p .exclusive ∧ p ∈ l.store.contents ∧ l.store.leads n = true
  · rw [delete_of_holds n hd.1 hd.2.1 hd.2.2]
    rfl
  · obtain ⟨e, he⟩ := delete_of_not n hd
    rw [he]

/-- A lock that has been deleted has no record. -/
theorem record?_of_delete_eq_ok {c : Client} {p : Path}
    (hok : (l.delete (Cluster.storeOf n) c p).1 = .ok ()) :
    (l.delete (Cluster.storeOf n) c p).2.slots.record? p = none := by
  obtain ⟨hc, hp, hl⟩ := (delete_eq_ok_iff n c p).1 hok
  rw [delete_of_holds n hc hp hl]
  simp

/-! ### Opening -/

theorem openLock_eq (l : Locks Cluster) (p : Path) :
    l.openLock (Cluster.storeOf n) p =
      if p ∈ l.store.contents then (.ok (), ⟨l.slots.put p (l.slots.record? p), l.store⟩)
      else if l.store.leads n then
        (.ok (), ⟨l.slots.put p (some (.free p)), l.store.commit (.set p [])⟩)
      else (.error l.store.refusal, ⟨l.slots.put p (l.slots.record? p), l.store⟩) := by
  simp only [openLock, inSlot, Cluster.has_storeOf, Cluster.set_storeOf]
  by_cases hp : p ∈ l.store.contents
  · simp only [hp, decide_true, if_true]
  · by_cases hl : l.store.leads n = true
    · simp only [hp, hl, decide_false, if_true, if_false]
    · simp only [hp, hl, decide_false, if_false]; rfl

theorem openLock_eq_ok_iff (l : Locks Cluster) (p : Path) :
    (l.openLock (Cluster.storeOf n) p).1 = .ok () ↔
      p ∈ l.store.contents ∨ l.store.leads n = true := by
  rw [openLock_eq]
  by_cases hp : p ∈ l.store.contents
  · simp [hp]
  · by_cases hl : l.store.leads n = true <;> simp [hp, hl]

/-- The table itself refuses no open. -/
theorem openLock_ne_lock (l : Locks Cluster) (p : Path) (e : LockError) :
    (l.openLock (Cluster.storeOf n) p).1 ≠ .error (.lock e) := by
  rw [openLock_eq]
  repeat' split
  all_goals simp [Cluster.refusal]

theorem sound_openLock (h : l.slots.Sound) (p : Path) :
    (l.openLock (Cluster.storeOf n) p).2.slots.Sound := by
  rw [openLock_eq]
  split
  · exact h.put (h p)
  · split
    · exact h.put fun r hr => by cases hr; exact Record.sound_free p
    · exact h.put (h p)

/-- A lock that is made is free, whatever the table said of it before. -/
theorem holds_openLock (l : Locks Cluster) (d : Client) (p q : Path) (k : Mode) :
    (l.openLock (Cluster.storeOf n) p).2.slots.Holds d q k ↔
      l.slots.Holds d q k ∧
        ¬ (p ∉ l.store.contents ∧ l.store.leads n = true ∧ q = p) := by
  rw [openLock_eq]
  by_cases hp : p ∈ l.store.contents
  · simp [hp, Slots.holds_put_record?]
  · by_cases hl : l.store.leads n = true
    · by_cases e : q = p <;> simp [hp, hl, e, Slots.holds_put, Record.free]
    · simp [hp, hl, Slots.holds_put_record?]

theorem mem_openLock (l : Locks Cluster) (p q : Path) :
    q ∈ (l.openLock (Cluster.storeOf n) p).2.store.contents ↔
      q ∈ l.store.contents ∨ l.store.leads n = true ∧ q = p := by
  rw [openLock_eq]
  by_cases hp : p ∈ l.store.contents
  · by_cases e : q = p <;> simp [hp, e]
  · by_cases hl : l.store.leads n = true
    · simp [hp, hl, Cluster.mem_commit_set, or_comm]
    · simp [hp, hl]

@[simp] theorem leader_openLock (l : Locks Cluster) (p : Path) :
    (l.openLock (Cluster.storeOf n) p).2.store.leader = l.store.leader := by
  rw [openLock_eq]
  repeat' split
  all_goals rfl

end Locks

end LockCell
