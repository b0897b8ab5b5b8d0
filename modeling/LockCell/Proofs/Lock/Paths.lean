import LockCell.Proofs.Lock.ReaderWriter

/-
  LockCell.Proofs.Lock.Paths — locks of different paths do not see each other.

  All that a call looks at is the slot of its path, whether the path is a key of the store,
  and who leads (`SameAt`); all that it changes is that slot and that key. So a call is
  answered alike in two states that look the same from its path, and they look the same from
  there afterwards (`SameAt.call`); from any other path nothing has happened
  (`sameAt_call_of_ne`).

  A run of calls is therefore one run for each path, and what the calls on a path come to does
  not hang on those on others (`SameAt.run`). The log is the only thing that all paths share:
  what a run adds to it can be told path by path (`writtenBy`), and the order in which the
  entries of different paths stand there is all that is left of the order of the calls
  (`paths_apart`).

  Nothing is asked of the state: records may be flawed, slots empty, and the server need not
  lead.
-/

namespace LockCell

def LockOp.path : LockOp → Path
  | .openLock p | .deleteLock p | .acquireLock p _ | .releaseLock p => p

def Command.key : Command → Path
  | .set k _ | .delete k => k

/-! ## The store seen from a key -/

namespace Cluster

/-- Writes commands one after another. -/
def commits (k : Cluster) (cs : List Command) : Cluster := cs.foldl commit k

/-- The stores say the same of the key, and would refuse a write in the same way. -/
structure SameAt (p : Path) (k k' : Cluster) : Prop where
  value : k'.contents[p]? = k.contents[p]?
  leader : k'.leader = k.leader
  refusal : k'.refusal = k.refusal

variable {k k' k'' : Cluster} {p : Path} {x : Command} {n : Node}

theorem SameAt.refl (p : Path) (k : Cluster) : k.SameAt p k := ⟨rfl, rfl, rfl⟩

theorem SameAt.symm (h : k.SameAt p k') : k'.SameAt p k :=
  ⟨h.value.symm, h.leader.symm, h.refusal.symm⟩

theorem SameAt.trans (h : k.SameAt p k') (h' : k'.SameAt p k'') : k.SameAt p k'' :=
  ⟨h'.value.trans h.value, h'.leader.trans h.leader, h'.refusal.trans h.refusal⟩

theorem SameAt.mem_iff (h : k.SameAt p k') : p ∈ k'.contents ↔ p ∈ k.contents := by
  rw [Std.ExtTreeMap.mem_iff_isSome_getElem?, h.value, ← Std.ExtTreeMap.mem_iff_isSome_getElem?]

theorem SameAt.leads (h : k.SameAt p k') : k'.leads n = k.leads n :=
  leads_of_leader_eq h.leader n

theorem SameAt.has (h : k.SameAt p k') : (storeOf n).has k' p = (storeOf n).has k p := by
  simp only [has_storeOf, h.mem_iff]

/-- A write of another key is not seen. -/
theorem sameAt_commit_of_ne (h : x.key ≠ p) (k : Cluster) : k.SameAt p (k.commit x) := by
  refine ⟨?_, rfl, rfl⟩
  cases x with
  | set q v =>
    show (k.contents.insert q v)[p]? = k.contents[p]?
    rw [Std.ExtTreeMap.getElem?_insert, if_neg (by simpa [Command.key] using h)]
  | delete q =>
    show (k.contents.erase q)[p]? = k.contents[p]?
    rw [Std.ExtTreeMap.getElem?_erase, if_neg (by simpa [Command.key] using h)]

theorem SameAt.commit (h : k.SameAt p k') (x : Command) : (k.commit x).SameAt p (k'.commit x) := by
  refine ⟨?_, h.leader, h.refusal⟩
  cases x with
  | set q v =>
    show (k'.contents.insert q v)[p]? = (k.contents.insert q v)[p]?
    rw [Std.ExtTreeMap.getElem?_insert, Std.ExtTreeMap.getElem?_insert, h.value]
  | delete q =>
    show (k'.contents.erase q)[p]? = (k.contents.erase q)[p]?
    rw [Std.ExtTreeMap.getElem?_erase, Std.ExtTreeMap.getElem?_erase, h.value]

end Cluster

/-! ## A lock table seen from a path -/

namespace Locks

/-- The states look the same from the path. -/
structure SameAt (p : Path) (l l' : Locks Cluster) : Prop where
  slot : l'.slots[p]? = l.slots[p]?
  store : l.store.SameAt p l'.store

variable {l l' l'' : Locks Cluster} {p q : Path} {n : Node} {c : Client} {op : LockOp}

theorem SameAt.refl (p : Path) (l : Locks Cluster) : l.SameAt p l := ⟨rfl, .refl p l.store⟩

theorem SameAt.symm (h : l.SameAt p l') : l'.SameAt p l := ⟨h.slot.symm, h.store.symm⟩

theorem SameAt.trans (h : l.SameAt p l') (h' : l'.SameAt p l'') : l.SameAt p l'' :=
  ⟨h'.slot.trans h.slot, h.store.trans h'.store⟩

theorem put_getElem? (t : Slots) (p q : Path) (r : Option Record) :
    (t.put p r)[q]? = if p = q then r.map some else t[q]? := by
  cases r with
  | none => simp [Slots.put, Std.ExtTreeMap.getElem?_erase]
  | some r => simp [Slots.put, Std.ExtTreeMap.getElem?_insert]

/-- Work in a slot that is the same for both states. -/
theorem SameAt.inSlot {α : Type} {f f' : Option Record → Except Error α × Option Record × Cluster}
    (h : l.SameAt p l') (hf : ∀ r, (f' r).1 = (f r).1 ∧ (f' r).2.1 = (f r).2.1 ∧
      (f r).2.2.SameAt p (f' r).2.2) :
    (l'.inSlot p f').1 = (l.inSlot p f).1 ∧ (l.inSlot p f).2.SameAt p (l'.inSlot p f').2 := by
  have hr : l'.slots.record? p = l.slots.record? p := by
    unfold Slots.record?
    rw [h.slot]
  obtain ⟨ha, hleft, hs⟩ := hf (l.slots.record? p)
  refine ⟨?_, ?_, ?_⟩
  · rw [inSlot_fst, inSlot_fst, hr, ha]
  · show (l'.slots.put p _)[p]? = (l.slots.put p _)[p]?
    rw [put_getElem?, put_getElem?, if_pos rfl, if_pos rfl, hr, hleft]
  · rw [inSlot_store, inSlot_store, hr]
    exact hs

/-! ### One call -/

/-- Only an open and a delete have anything to write. -/
theorem store_acquire_eq (n : Node) (l : Locks Cluster) (c : Client) (p : Path) (m : Mode) :
    (l.acquire (Cluster.storeOf n) c p m).2.store = l.store := by
  unfold acquire
  split
  · rw [inSlot_store, Cluster.has_storeOf]
    dsimp only
    repeat' split
    all_goals rfl
  · rfl

theorem store_release_eq (n : Node) (l : Locks Cluster) (c : Client) (p : Path) :
    (l.release (Cluster.storeOf n) c p).2.store = l.store := by
  unfold release
  rw [inSlot_store, Cluster.has_storeOf]
  repeat' split
  all_goals rfl

/-- What a call leaves: the store as it was, or with one more entry, which makes a lock that
did not exist or deletes one that did. -/
theorem store_call_cases (n : Node) (l : Locks Cluster) (c : Client) (op : LockOp) :
    (l.call (Cluster.storeOf n) c op).2.store = l.store ∨
      op.path ∉ l.store.contents ∧
        (l.call (Cluster.storeOf n) c op).2.store = l.store.commit (.set op.path []) ∨
      op.path ∈ l.store.contents ∧
        (l.call (Cluster.storeOf n) c op).2.store = l.store.commit (.delete op.path) := by
  cases op with
  | openLock p =>
    simp only [call, openLock_eq, LockOp.path]
    by_cases hp : p ∈ l.store.contents
    · left
      rw [if_pos hp]
    · rw [if_neg hp]
      split
      · right
        left
        exact ⟨hp, rfl⟩
      · left
        rfl
  | acquireLock p m =>
    left
    exact store_acquire_eq n l c p m
  | releaseLock p =>
    left
    exact store_release_eq n l c p
  | deleteLock p =>
    by_cases hd : l.slots.Holds c p .exclusive ∧ p ∈ l.store.contents ∧ l.store.leads n = true
    · right
      right
      refine ⟨hd.2.1, ?_⟩
      simp only [call, delete_of_holds n hd.1 hd.2.1 hd.2.2, LockOp.path]
    · left
      obtain ⟨e, he⟩ := delete_of_not n hd
      simp only [call, he]

/-- A call works in the slot of its path, if it works in one. -/
theorem slots_call_cases (n : Node) (l : Locks Cluster) (c : Client) (op : LockOp) :
    (l.call (Cluster.storeOf n) c op).2.slots = l.slots ∨
      ∃ r, (l.call (Cluster.storeOf n) c op).2.slots = l.slots.put op.path r := by
  cases op with
  | openLock p | releaseLock p | deleteLock p =>
    right
    exact ⟨_, rfl⟩
  | acquireLock p m =>
    simp only [call, acquire]
    split
    · right
      exact ⟨_, rfl⟩
    · left
      rfl

/-- From another path nothing is seen of a call. -/
theorem sameAt_call_of_ne (h : op.path ≠ p) (n : Node) (l : Locks Cluster) (c : Client) :
    l.SameAt p (l.call (Cluster.storeOf n) c op).2 := by
  constructor
  · rcases slots_call_cases n l c op with hs | ⟨r, hs⟩
    · rw [hs]
    · rw [hs, put_getElem?, if_neg h]
  · rcases store_call_cases n l c op with hs | ⟨-, hs⟩ | ⟨-, hs⟩
    · rw [hs]
      exact .refl p l.store
    · rw [hs]
      exact Cluster.sameAt_commit_of_ne (x := .set op.path []) h l.store
    · rw [hs]
      exact Cluster.sameAt_commit_of_ne (x := .delete op.path) h l.store

theorem SameAt.openLock (h : l.SameAt p l') :
    (l'.openLock (Cluster.storeOf n) p).1 = (l.openLock (Cluster.storeOf n) p).1 ∧
      (l.openLock (Cluster.storeOf n) p).2.SameAt p (l'.openLock (Cluster.storeOf n) p).2 := by
  apply h.inSlot
  intro r
  rw [h.store.has]
  cases (Cluster.storeOf n).has l.store p with
  | error e => exact ⟨rfl, rfl, h.store⟩
  | ok there =>
    cases there with
    | true => exact ⟨rfl, rfl, h.store⟩
    | false =>
      dsimp only
      rw [Cluster.set_storeOf, Cluster.set_storeOf, h.store.leads]
      by_cases hl : l.store.leads n = true
      · rw [if_pos hl, if_pos hl]
        exact ⟨rfl, rfl, h.store.commit _⟩
      · rw [if_neg hl, if_neg hl, h.store.refusal]
        exact ⟨rfl, rfl, h.store⟩

theorem SameAt.acquire (h : l.SameAt p l') (m : Mode) :
    (l'.acquire (Cluster.storeOf n) c p m).1 = (l.acquire (Cluster.storeOf n) c p m).1 ∧
      (l.acquire (Cluster.storeOf n) c p m).2.SameAt p
        (l'.acquire (Cluster.storeOf n) c p m).2 := by
  unfold Locks.acquire
  by_cases hm : m.requestable = true
  · rw [if_pos hm, if_pos hm]
    apply h.inSlot
    intro r
    rw [h.store.has]
    cases (Cluster.storeOf n).has l.store p with
    | error e => exact ⟨rfl, rfl, h.store⟩
    | ok there =>
      cases there with
      | false => exact ⟨rfl, rfl, h.store⟩
      | true =>
        dsimp only
        rcases (r.getD (.free p)).acquire c p m with _ | _ | _
        · exact ⟨rfl, rfl, h.store⟩
        · exact ⟨rfl, rfl, h.store⟩
        · exact ⟨rfl, rfl, h.store⟩
  · rw [if_neg hm, if_neg hm]
    exact ⟨rfl, h⟩

theorem SameAt.release (h : l.SameAt p l') :
    (l'.release (Cluster.storeOf n) c p).1 = (l.release (Cluster.storeOf n) c p).1 ∧
      (l.release (Cluster.storeOf n) c p).2.SameAt p (l'.release (Cluster.storeOf n) c p).2 := by
  apply h.inSlot
  intro r
  rw [h.store.has]
  cases (Cluster.storeOf n).has l.store p with
  | error e => exact ⟨rfl, rfl, h.store⟩
  | ok there =>
    cases there with
    | false => exact ⟨rfl, rfl, h.store⟩
    | true =>
      cases r with
      | none => exact ⟨rfl, rfl, h.store⟩
      | some here =>
        dsimp only
        cases here.release c p with
        | error e => exact ⟨rfl, rfl, h.store⟩
        | ok left => exact ⟨rfl, rfl, h.store⟩

theorem SameAt.delete (h : l.SameAt p l') :
    (l'.delete (Cluster.storeOf n) c p).1 = (l.delete (Cluster.storeOf n) c p).1 ∧
      (l.delete (Cluster.storeOf n) c p).2.SameAt p (l'.delete (Cluster.storeOf n) c p).2 := by
  apply h.inSlot
  intro r
  dsimp only
  cases r.filter (·.ownedBy c) with
  | none => exact ⟨rfl, rfl, h.store⟩
  | some here =>
    dsimp only
    by_cases hx : here.mode = .exclusive
    · rw [if_pos hx, if_pos hx, h.store.has]
      cases (Cluster.storeOf n).has l.store p with
      | error e => exact ⟨rfl, rfl, h.store⟩
      | ok there =>
        cases there with
        | false => exact ⟨rfl, rfl, h.store⟩
        | true =>
          dsimp only
          rw [Cluster.delete_storeOf, Cluster.delete_storeOf, h.store.leads]
          by_cases hl : l.store.leads n = true
          · rw [if_pos hl, if_pos hl]
            exact ⟨rfl, rfl, h.store.commit _⟩
          · rw [if_neg hl, if_neg hl, h.store.refusal]
            exact ⟨rfl, rfl, h.store⟩
    · rw [if_neg hx, if_neg hx]
      exact ⟨rfl, rfl, h.store⟩

/-- A call is answered alike in states that look the same from its path, and they do so after
it. -/
theorem SameAt.call (h : l.SameAt op.path l') :
    (l'.call (Cluster.storeOf n) c op).1 = (l.call (Cluster.storeOf n) c op).1 ∧
      (l.call (Cluster.storeOf n) c op).2.SameAt op.path
        (l'.call (Cluster.storeOf n) c op).2 := by
  cases op with
  | openLock p =>
    obtain ⟨ha, hs⟩ := SameAt.openLock (n := n) h
    exact ⟨congrArg (Except.map fun _ => true) ha, hs⟩
  | acquireLock p m => exact SameAt.acquire h m
  | releaseLock p =>
    obtain ⟨ha, hs⟩ := SameAt.release (n := n) (c := c) h
    exact ⟨congrArg (Except.map fun _ => true) ha, hs⟩
  | deleteLock p =>
    obtain ⟨ha, hs⟩ := SameAt.delete (n := n) (c := c) h
    exact ⟨congrArg (Except.map fun _ => true) ha, hs⟩

/-! ### A run of calls -/

/-- What a call adds to the log. -/
def written (n : Node) (l : Locks Cluster) (c : Client) (op : LockOp) : List Command :=
  if op.path ∈ l.store.contents then
    if op.path ∈ (l.call (Cluster.storeOf n) c op).2.store.contents then [] else [.delete op.path]
  else
    if op.path ∈ (l.call (Cluster.storeOf n) c op).2.store.contents then [.set op.path []] else []

/-- What a run of calls adds to the log. -/
def writtenBy (n : Node) (l : Locks Cluster) : List (Client × LockOp) → List Command
  | [] => []
  | (c, op) :: rest =>
    l.written n c op ++ writtenBy n (l.call (Cluster.storeOf n) c op).2 rest

theorem store_call (n : Node) (l : Locks Cluster) (c : Client) (op : LockOp) :
    (l.call (Cluster.storeOf n) c op).2.store = l.store.commits (l.written n c op) := by
  unfold written
  rcases store_call_cases n l c op with hs | ⟨hp, hs⟩ | ⟨hp, hs⟩
  · rw [hs]
    split
    · rfl
    · rfl
  · rw [hs, if_neg hp, if_pos ((Cluster.mem_commit_set _ _ _ _).2 (Or.inl rfl))]
    rfl
  · have hgone : op.path ∉ (l.store.commit (.delete op.path)).contents := by
      intro hm
      exact ((Cluster.mem_commit_delete _ _ _).1 hm).1 rfl
    rw [hs, if_pos hp, if_neg hgone]
    rfl

theorem key_of_mem_written {x : Command} (hx : x ∈ l.written n c op) : x.key = op.path := by
  unfold written at hx
  repeat' split at hx
  all_goals simp_all [Command.key]

theorem store_run (n : Node) (l : Locks Cluster) (calls : List (Client × LockOp)) :
    (l.run (Cluster.storeOf n) calls).2.store = l.store.commits (l.writtenBy n calls) := by
  induction calls generalizing l with
  | nil => rfl
  | cons x rest ih =>
    obtain ⟨c, op⟩ := x
    show ((l.call (Cluster.storeOf n) c op).2.run (Cluster.storeOf n) rest).2.store = _
    rw [ih, store_call]
    simp only [writtenBy, Cluster.commits, List.foldl_append]

theorem SameAt.written (h : l.SameAt op.path l') : l'.written n c op = l.written n c op := by
  unfold Locks.written
  simp only [h.store.mem_iff, (SameAt.call h).2.store.mem_iff]

/-- What a run of calls is for one path: the calls on that path alone. -/
structure RunsAt (n : Node) (p : Path) (l l' : Locks Cluster) (calls : List (Client × LockOp)) :
    Prop where
  answers : (l.run (Cluster.storeOf n) calls).1.filter (·.op.path = p) =
    (l'.run (Cluster.storeOf n) (calls.filter (·.2.path = p))).1
  written : (l.writtenBy n calls).filter (·.key = p) =
    l'.writtenBy n (calls.filter (·.2.path = p))
  after : (l.run (Cluster.storeOf n) calls).2.SameAt p
    (l'.run (Cluster.storeOf n) (calls.filter (·.2.path = p))).2

/-- The calls on other paths might as well not have been made. -/
theorem SameAt.run (h : l.SameAt p l') (n : Node) (calls : List (Client × LockOp)) :
    RunsAt n p l l' calls := by
  induction calls generalizing l l' with
  | nil => exact ⟨rfl, rfl, h⟩
  | cons x rest ih =>
    obtain ⟨c, op⟩ := x
    by_cases hp : op.path = p
    · subst hp
      obtain ⟨ha, hs⟩ := SameAt.call (n := n) (c := c) h
      have hw : (l.written n c op).filter (·.key = op.path) = l'.written n c op := by
        rw [SameAt.written h]
        exact List.filter_eq_self.2 fun x hx => decide_eq_true (key_of_mem_written hx)
      obtain ⟨hanswers, hwritten, hafter⟩ := ih hs
      constructor
      · simp [Locks.run, ha, hanswers]
      · simp [writtenBy, hw, hwritten]
      · simpa [Locks.run] using hafter
    · have hw : (l.written n c op).filter (·.key = p) = [] := by
        refine List.filter_eq_nil_iff.2 fun x hx => ?_
        simpa [key_of_mem_written hx] using hp
      obtain ⟨hanswers, hwritten, hafter⟩ := ih ((sameAt_call_of_ne hp n l c).symm.trans h)
      constructor
      · simp [Locks.run, hp, hanswers]
      · simp [writtenBy, hw, hp, hwritten]
      · simpa [Locks.run, hp] using hafter

/-! ### Another order -/

/-- The states are the same but for the order in which entries of different paths were added to
the log of `l₀`. -/
structure SameButOrder (l₀ l l' : Locks Cluster) : Prop where
  slots : l'.slots = l.slots
  contents : l'.store.contents = l.store.contents
  log : ∃ ws ws', l.store = l₀.store.commits ws ∧ l'.store = l₀.store.commits ws' ∧
    ws'.Perm ws ∧ ∀ p, ws'.filter (·.key = p) = ws.filter (·.key = p)

/-- Lists whose parts are the same are the same but for the order. -/
theorem perm_of_filter_eq {ws ws' : List Command}
    (h : ∀ p, ws'.filter (·.key = p) = ws.filter (·.key = p)) : ws'.Perm ws := by
  refine List.perm_iff_count.2 fun x => ?_
  have hcount : ∀ l : List Command, (l.filter (·.key = x.key)).count x = l.count x := by
    intro l
    exact List.count_filter (decide_eq_true rfl)
  rw [← hcount ws', ← hcount ws, h]

section

variable {calls calls' : List (Client × LockOp)}
  (h : ∀ p, calls'.filter (·.2.path = p) = calls.filter (·.2.path = p))

include h

/-- Each path has had the same calls, so it has had the same answers. -/
theorem answers_eq_of_order (n : Node) (l : Locks Cluster) (p : Path) :
    (l.run (Cluster.storeOf n) calls').1.filter (·.op.path = p) =
      (l.run (Cluster.storeOf n) calls).1.filter (·.op.path = p) := by
  rw [(SameAt.run (.refl p l) n calls').answers, (SameAt.run (.refl p l) n calls).answers, h p]

theorem sameAt_of_order (n : Node) (l : Locks Cluster) (p : Path) :
    (l.run (Cluster.storeOf n) calls).2.SameAt p (l.run (Cluster.storeOf n) calls').2 := by
  have hs := (SameAt.run (.refl p l) n calls).after
  have hs' := (SameAt.run (.refl p l) n calls').after
  rw [h p] at hs'
  exact hs.trans hs'.symm

theorem sameButOrder_of_order (n : Node) (l : Locks Cluster) :
    l.SameButOrder (l.run (Cluster.storeOf n) calls).2 (l.run (Cluster.storeOf n) calls').2 where
  slots := Std.ExtTreeMap.ext_getElem? fun {p} => (sameAt_of_order h n l p).slot
  contents := Std.ExtTreeMap.ext_getElem? fun {p} => (sameAt_of_order h n l p).store.value
  log := by
    have hw : ∀ p, (l.writtenBy n calls').filter (·.key = p) =
        (l.writtenBy n calls).filter (·.key = p) := by
      intro p
      rw [(SameAt.run (.refl p l) n calls').written, (SameAt.run (.refl p l) n calls).written, h p]
    exact ⟨_, _, store_run n l calls, store_run n l calls', perm_of_filter_eq hw, hw⟩

end

/-- **Locks of different paths do not see each other.** Whatever state table and store are in,
two calls on different paths come to the same in either order: each has the same answer, and
table, slots and contents are the same after them. So if calls are made in another order, with
those on each path in the same order as before, then no call has another answer, and all that
is not as it was is the order of the log's entries. -/
theorem paths_apart (n : Node) (l : Locks Cluster) :
    (∀ c d op op', LockOp.path op ≠ op'.path →
      let x := l.call (Cluster.storeOf n) c op
      let y := l.call (Cluster.storeOf n) d op'
      (y.2.call (Cluster.storeOf n) c op).1 = x.1 ∧
        (x.2.call (Cluster.storeOf n) d op').1 = y.1 ∧
        l.SameButOrder (x.2.call (Cluster.storeOf n) d op').2
          (y.2.call (Cluster.storeOf n) c op).2) ∧
    ∀ calls calls' : List (Client × LockOp),
      (∀ p, calls'.filter (·.2.path = p) = calls.filter (·.2.path = p)) →
      (∀ p, (l.run (Cluster.storeOf n) calls').1.filter (·.op.path = p) =
        (l.run (Cluster.storeOf n) calls).1.filter (·.op.path = p)) ∧
        l.SameButOrder (l.run (Cluster.storeOf n) calls).2
          (l.run (Cluster.storeOf n) calls').2 := by
  constructor
  · intro c d op op' hne
    have horder : ∀ p, [(d, op'), (c, op)].filter (·.2.path = p) =
        [(c, op), (d, op')].filter (·.2.path = p) := by
      intro p
      by_cases hp : op.path = p
      · have hp' : op'.path ≠ p := fun e => hne (hp.trans e.symm)
        simp [hp, hp']
      · by_cases hp' : op'.path = p
        · simp [hp, hp']
        · simp [hp, hp']
    refine ⟨?_, ?_, sameButOrder_of_order horder n l⟩
    · exact (SameAt.call (sameAt_call_of_ne hne.symm n l d)).1
    · exact (SameAt.call (sameAt_call_of_ne hne n l c)).1
  · intro calls calls' h
    exact ⟨answers_eq_of_order h n l, sameButOrder_of_order h n l⟩

/-- One client makes a lock and does away with it; another opens one whose record is flawed. -/
def inTurns : List (Client × LockOp) :=
  [("x", .openLock "L"), ("y", .openLock "M"), ("x", .acquireLock "L" .exclusive),
    ("y", .acquireLock "N" .shared), ("x", .deleteLock "L"), ("y", .releaseLock "M")]

/-- The same calls, those of the second client first. -/
def oneAfterTheOther : List (Client × LockOp) :=
  [("y", .openLock "M"), ("y", .acquireLock "N" .shared), ("y", .releaseLock "M"),
    ("x", .openLock "L"), ("x", .acquireLock "L" .exclusive), ("x", .deleteLock "L")]

theorem paths_apart_of_inTurns :
    let l : Locks Cluster :=
      ⟨Slots.put ∅ "N" (some ⟨"N", .exclusive, ∅⟩), (Cluster.empty.elect "a").commit (.set "N" [])⟩
    let S := Cluster.storeOf "a"
    let y := l.call S "y" (.openLock "M")
    (LockOp.openLock "L").path ≠ (LockOp.openLock "M").path ∧
      (y.2.call S "x" (.openLock "L")).1 = (l.call S "x" (.openLock "L")).1 ∧
      (∀ p, oneAfterTheOther.filter (·.2.path = p) = inTurns.filter (·.2.path = p)) ∧
      (l.run S inTurns).2.store.entries ≠ (l.run S oneAfterTheOther).2.store.entries ∧
      l.SameButOrder (l.run S inTurns).2 (l.run S oneAfterTheOther).2 := by
  intro l S y
  have hne : (LockOp.openLock "L").path ≠ (LockOp.openLock "M").path := by decide
  have horder : ∀ p, oneAfterTheOther.filter (·.2.path = p) = inTurns.filter (·.2.path = p) := by
    intro p
    simp only [oneAfterTheOther, inTurns, LockOp.path, List.filter_cons, List.filter_nil]
    by_cases hl : "L" = p
    · subst hl
      simp
    · by_cases hm : "M" = p
      · subst hm
        simp
      · simp [hl, hm]
  refine ⟨hne, ?_, horder, by decide +kernel, ?_⟩
  · exact ((paths_apart "a" l).1 "x" "y" _ _ hne).1
  · exact ((paths_apart "a" l).2 inTurns oneAfterTheOther horder).2

end Locks

end LockCell
