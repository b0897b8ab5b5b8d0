import LockCell.Proofs.Cell.Turns
import LockCell.Proofs.Lock.WellFormed
import LockCell.Proofs.Server.OneLeader

/-
  LockCell.Proofs.Cell.WellFormed — every lock table of a cell is well formed, in every
  state of every run.

  Nothing is left out of a run here. Beside requests, timers, losses and elections there are
  calls of the lock tables themselves, writes to the store behind their backs, and servers
  that are added or replaced. Whatever happens, the table of each server that ever was is
  well formed (`Formed`, `Turn.formed`). So of all that can be asked of a server or done to
  the cell, only a release that reached a lock recorded as free is answered by an invariant
  violation (`InOrder`, `inOrder_of_turns`). One run gets to such an answer: while a client
  holds a lock, its key is deleted from the store, and the lock is opened anew (`reopened`).
-/

namespace LockCell

namespace Server

variable {W : Client → Prop} {now : Nat} {v : Server} {k : Cluster}

theorem Move.wellFormed {x y : Server × Cluster} (hm : Move W now x y)
    (h : x.1.slots.WellFormed) : y.1.slots.WellFormed := by
  cases hm with
  | begin | tend | refresh | members => exact h
  | call op hi =>
    rw [onSession_of_some hi]
    exact Session.wellFormed_call _ h op
  | expire hi _ | terminate _ hi =>
    unfold Server.terminate
    rw [onSession_of_some hi]
    exact Session.wellFormed_terminate _ h

/-- The table is well formed, and nothing that is asked of the server finds it at odds with
itself but the release of a lock that is recorded as free. -/
structure InOrder (v : Server) (k : Cluster) : Prop where
  table : v.slots.WellFormed
  call : ∀ c op p d, ((v.locks k).call v.store c op).1 = .error (.lock (.invariant p d)) →
    op = .releaseLock p ∧ (v.locks k).FreeRelease c p d
  session : ∀ (i : Nat) (s : Session), v.sessions[i]? = some s → ∀ op p d,
    (s.call v.store (v.locks k) op).1 = .error (.lock (.invariant p d)) →
      op = .releaseLock p ∧ p ∈ s.held ∧ (v.locks k).FreeRelease s.client p d
  serve : ∀ now q p d, (v.serve k now q).1 = .done (.error (.lock (.invariant p d))) →
    ∃ c, q = .releaseLock c p ∧ (v.locks k).FreeRelease c p d
  keepAlive : ∀ c claimed now e, (v.keepAlive k c claimed now).1 ≠ .done (.error (.lock e))

theorem Kept.inOrder (hv : v.Kept) (h : v.slots.WellFormed) (k : Cluster) : v.InOrder k where
  table := h
  call c op p d := (Locks.call_eq_invariant_iff v.node (l := v.locks k) h c op p d).1
  session _ _ _ _ _ _ := Session.call_eq_invariant v.node (l := v.locks k) h
  keepAlive c claimed now e := keepAlive_ne_lock v k c claimed now e
  serve now q p d he := by
    obtain ⟨c, op, i, s, rfl, hl, he⟩ := exists_call_of_serve he
    obtain ⟨rfl, -, hf⟩ := Session.call_eq_invariant v.node (l := v.locks k) h he
    rw [hv.client_of_session? (liveSession_eq_ok_iff.1 hl).1] at hf
    exact ⟨c, rfl, hf⟩

end Server

/-- The error that an answer at once reports. -/
def Answer.error? : Answer → Option Error
  | .done (.error e) | .flag (.error e) | .bytes (.error e) | .session (.error e)
  | .span (.error e) => some e
  | _ => none

namespace Answer

theorem error?_done {r : Except Error Unit} {e : Error} :
    (done r).error? = some e ↔ r = .error e := by
  cases r <;> simp [error?]

theorem error?_flag {r : Except Error Bool} {e : Error} :
    (flag r).error? = some e ↔ r = .error e := by
  cases r <;> simp [error?]

end Answer

namespace Cell

/-- The registry and the lock table of every server are in order. -/
def Formed (c : Cell) : Prop :=
  ∀ (i : Nat) (v : Server), c.servers[i]? = some v → v.Kept ∧ v.slots.WellFormed

variable {W : Client → Prop} {c c' : Cell}

theorem Formed.kept (h : c.Formed) : c.Kept := fun i v hv => (h i v hv).1

theorem Formed.of_eq (h : c.Formed) (hs : c'.servers = c.servers) : c'.Formed := by
  unfold Formed
  rw [hs]
  exact h

theorem Formed.push (h : c.Formed) {n : Node} {l : Addr} {lease : LeaseConfig}
    (hs : c'.servers = c.servers.push { node := n, listen := l, lease }) : c'.Formed := by
  intro i v hv
  rw [hs, Array.getElem?_push] at hv
  split at hv
  · cases hv
    exact ⟨Server.kept_fresh n l lease, Slots.wellFormed_empty⟩
  · exact h i v hv

theorem Formed.setSlots (h : c.Formed) {i : Nat} {v : Server} (hv : c.servers[i]? = some v)
    {t : Slots} (ht : t.WellFormed) (k : Cluster) :
    (c.setServer i { v with slots := t } k).Formed := by
  intro j w hw
  simp only [setServer, Array.getElem?_setIfInBounds] at hw
  split at hw
  · split at hw
    · cases hw
      exact ⟨(h i v hv).1.slots t, ht⟩
    · cases hw
  · exact h j w hw

theorem Shifts.formed (hs : Shifts W c c') (h : c.Formed) : c'.Formed :=
  hs.invariant (Q := fun _ v => v.Kept ∧ v.slots.WellFormed)
    (fun _ _ _ hm hv => ⟨hm.kept hv.1, hm.wellFormed hv.2⟩) h

theorem formed_act_of_ordinary {s : CellStep} (hs : s.Ordinary) (h : c.Formed) :
    (c.act s).2.Formed := by
  obtain ⟨c₁, hv, -, hm, -⟩ := act_sets h.kept hs
  exact hm.formed (h.of_eq hv)

theorem formed_actTable (h : c.Formed) {i : Nat} {v : Server} (hv : c.servers[i]? = some v)
    (s : TableStep) : (c.actTable i v s).2.Formed := by
  have called := fun x op =>
    h.setSlots hv (Locks.wellFormed_call v.node (l := v.locks c.cluster) (h i v hv).2 x op)
  cases s with
  | openLock p => exact called "" (.openLock p) _
  | acquire x p m => exact called x (.acquireLock p m) _
  | release x p => exact called x (.releaseLock p) _
  | delete x p => exact called x (.deleteLock p) _
  | record p => exact h

/-- Sleeping is a row of turns, none of which comes from outside. -/
theorem formed_sleep (h : c.Formed) (n : Nat) : (c.sleep n).Formed := by
  have ht : Turns (fun _ s => s.Ordinary) c (c.sleep n) :=
    turns_runToN _ h.kept (Nat.le_add_right _ _)
  refine ht.invariant (fun _ _ ht h => ?_) h
  cases ht with
  | act hs => exact formed_act_of_ordinary hs h
  | next hc => exact (shifts_next? h.kept hc).formed h
  | wait => exact h

/-- Nothing that can be done to a cell leaves a table ill formed. -/
theorem formed_act (h : c.Formed) (s : CellStep) : (c.act s).2.Formed := by
  by_cases hs : s.Ordinary
  · exact formed_act_of_ordinary hs h
  · cases s with
    | sleep n => exact formed_sleep h n
    | addNode n a l => exact h.push rfl
    | table n s =>
      simp only [act, onServer]
      split
      · exact h
      · rename_i i v hv
        exact formed_actTable h (server_of_node hv) s
    | restart n =>
      simp only [act, onSeat]
      split
      · exact h
      · exact ((shifts_hangUp (W := fun _ => True) c _).formed h).push rfl
    | _ => exact absurd trivial hs

theorem Turn.formed {P : Cell → CellStep → Prop} (ht : Turn P c c') (h : c.Formed) :
    c'.Formed := by
  cases ht with
  | act => exact formed_act h _
  | next hc => exact (shifts_next? h.kept hc).formed h
  | wait => exact h

/-! ## What is answered at once -/

/-- The step releases `p` for the client `x` at the server `v`: at its table, or in a session
of the client. -/
def Releases (c : Cell) (s : CellStep) (v : Server) (x : Client) (p : Path) : Prop :=
  (∃ n i, s = .table n (.release x p) ∧ c.serverOf? n = some (i, v)) ∨
    ∃ (h : String) (i j : Nat) (t : Session), s = .session h (.release p) ∧
      c.handles[h]? = some (i, j) ∧ c.servers[i]? = some v ∧ v.sessions[j]? = some t ∧ t.client = x

theorem actStore_ne_lock (c : Cell) (n : Node) (s : StoreStep) {a : Answer}
    (ha : (c.actStore n s).1 = some a) (e : LockError) : a.error? ≠ some (.lock e) := by
  have write : ∀ {r : Except Error Cluster}, r ≠ .error (.lock e) →
      (actStore.write c r).1 = some a → a.error? ≠ some (.lock e) := fun {r} hr ha => by
    cases r with
    | error e' =>
      cases ha
      simpa [Answer.error?] using hr
    | ok k =>
      cases ha
      simp [Answer.error?]
  cases s with
  | set key value =>
    refine write ?_ ha
    rw [Cluster.set_storeOf]
    split <;> simp [Cluster.refusal]
  | delete key =>
    refine write ?_ ha
    rw [Cluster.delete_storeOf]
    split <;> simp [Cluster.refusal]
  | join m addr =>
    refine write ?_ ha
    unfold Cluster.join Cluster.whenLeading
    split <;> simp [Cluster.refusal]
  | get | leads | leader =>
    cases ha
    simp [Answer.error?, Cluster.storeOf]

theorem actManager_ne_lock (c : Cell) (i : Nat) (v : Server) (s : ManagerStep) {a : Answer}
    (ha : (c.actManager i v s).1 = some a) (e : LockError) : a.error? ≠ some (.lock e) := by
  cases s with
  | create x h =>
    have hc := Server.create_ne_lock v x c.now e
    simp only [actManager] at ha
    split at ha
    · rename_i hv
      cases ha
      rw [hv] at hc
      simpa [Answer.error?] using hc
    · cases ha
      simp [Answer.error?]
  | live x h =>
    have hl := Server.liveSession_ne_lock v x e
    simp only [actManager] at ha
    split at ha
    · rename_i hv
      cases ha
      rw [hv] at hl
      simpa [Answer.error?] using hl
    · cases ha
      simp [Answer.error?]
  | find x h =>
    simp only [actManager] at ha
    split at ha <;> cases ha <;> simp [Answer.error?]
  | terminate x =>
    simp only [actManager, Server.terminateClient] at ha
    split at ha <;> cases ha <;> simp [Answer.error?]

/-- Of the calls of a table only a release is answered by an invariant violation. -/
theorem actTable_eq_invariant (c : Cell) {i : Nat} {v : Server} (hv : v.slots.WellFormed)
    {s : TableStep} {a : Answer} (ha : (c.actTable i v s).1 = some a) {p : Path} {d : String}
    (he : a.error? = some (.lock (.invariant p d))) :
    ∃ x, s = .release x p ∧ (v.locks c.cluster).FreeRelease x p d := by
  have called := fun x op => (Locks.call_eq_invariant_iff v.node (l := v.locks c.cluster) hv x op p d).1
  cases s with
  | openLock q =>
    cases ha
    exact absurd (called "" (.openLock q) (map_eq_error_iff.2 (Answer.error?_done.1 he))).1 (by simp)
  | acquire x q m =>
    cases ha
    exact absurd (called x (.acquireLock q m) (Answer.error?_flag.1 he)).1 (by simp)
  | release x q =>
    cases ha
    obtain ⟨e, hf⟩ := called x (.releaseLock q) (map_eq_error_iff.2 (Answer.error?_done.1 he))
    cases e
    exact ⟨x, rfl, hf⟩
  | delete x q =>
    cases ha
    exact absurd (called x (.deleteLock q) (map_eq_error_iff.2 (Answer.error?_done.1 he))).1 (by simp)
  | record q =>
    cases ha
    cases he

theorem actSession_eq_invariant (c : Cell) {i j : Nat} {v : Server} {t : Session}
    (hv : v.slots.WellFormed) {s : SessionStep} {a : Answer}
    (ha : (c.actSession i j v t s).1 = some a) {p : Path} {d : String}
    (he : a.error? = some (.lock (.invariant p d))) :
    s = .release p ∧ (v.locks c.cluster).FreeRelease t.client p d := by
  have called := fun op (hc : (t.call v.store (v.locks c.cluster) op).1 =
    .error (.lock (.invariant p d))) =>
      Session.call_eq_invariant v.node (l := v.locks c.cluster) hv hc
  cases s with
  | openLock q =>
    cases ha
    exact absurd (called (.openLock q) (map_eq_error_iff.2 (Answer.error?_done.1 he))).1 (by simp)
  | acquire q m =>
    cases ha
    exact absurd (called (.acquireLock q m) (Answer.error?_flag.1 he)).1 (by simp)
  | release q =>
    cases ha
    obtain ⟨e, -, hf⟩ := called (.releaseLock q) (map_eq_error_iff.2 (Answer.error?_done.1 he))
    cases e
    exact ⟨rfl, hf⟩
  | delete q =>
    cases ha
    exact absurd (called (.deleteLock q) (map_eq_error_iff.2 (Answer.error?_done.1 he))).1 (by simp)
  | refresh =>
    simp only [actSession, Session.refresh?] at ha
    split at ha
    · rename_i hr
      split at hr <;> cases hr
      cases ha
      simp [Answer.error?] at he
    · cases ha
      simp [Answer.error?] at he
  | terminate | info =>
    cases ha
    simp [Answer.error?] at he

/-- Of all that is answered at once, only a release is answered by an invariant violation. -/
theorem act_eq_invariant (h : c.Formed) {s : CellStep} {a : Answer} (ha : (c.act s).1 = some a)
    {p : Path} {d : String} (he : a.error? = some (.lock (.invariant p d))) :
    ∃ v x, c.Releases s v x p ∧ (v.locks c.cluster).FreeRelease x p d := by
  cases s with
  | sleep n => cases ha
  | elect | stepDown | follow | addNode | cluster | latency | requests | trap | clearTraps
  | printed =>
    cases ha
    simp [Answer.error?] at he
  | abort tag =>
    simp only [act, abort] at ha
    repeat' split at ha
    all_goals cases ha; simp [Answer.error?] at he
  | call tag s =>
    cases s <;> simp only [act, actCall] at ha
    all_goals repeat' split at ha
    all_goals cases ha <;> simp [Answer.error?, noClient] at he
  | down n | up n | crash n | restart n =>
    simp only [act, onSeat] at ha
    split at ha <;> cases ha <;> simp [Answer.error?] at he
  | close name =>
    simp only [act] at ha
    split at ha <;> cases ha <;> simp [Answer.error?, noClient] at he
  | store n s =>
    simp only [act, onServer] at ha
    split at ha
    · cases ha
      cases he
    · exact absurd he (actStore_ne_lock c n s ha _)
  | manager n s =>
    simp only [act, onServer] at ha
    split at ha
    · cases ha
      cases he
    · exact absurd he (actManager_ne_lock c _ _ s ha _)
  | table n s =>
    simp only [act, onServer] at ha
    split at ha
    · cases ha
      cases he
    · rename_i i v hv
      obtain ⟨x, rfl, hf⟩ := actTable_eq_invariant c (h i v (server_of_node hv)).2 ha he
      exact ⟨v, x, Or.inl ⟨n, i, rfl, hv⟩, hf⟩
  | session handle s =>
    simp only [act] at ha
    split at ha
    · cases ha
      cases he
    · rename_i i j hh
      split at ha
      · cases ha
        cases he
      · rename_i v hv
        split at ha
        · cases ha
          cases he
        · rename_i t ht
          obtain ⟨rfl, hf⟩ := actSession_eq_invariant c (h i v hv).2 ha he
          exact ⟨v, t.client, Or.inr ⟨handle, i, j, t, rfl, hh, hv, ht, rfl⟩, hf⟩

/-! ## All runs -/

theorem formed_start (lease : LeaseConfig) (latency : Nat) (nodes : List (Node × Addr × Addr))
    (leader : Option Node) : (start lease latency nodes leader).Formed := by
  intro i v hv
  obtain ⟨x, -, rfl⟩ := server_of_start hv
  exact ⟨Server.kept_fresh _ _ _, Slots.wellFormed_empty⟩

theorem formed_of_turns {P : Cell → CellStep → Prop} (ht : Turns P c c') (h : c.Formed) :
    c'.Formed :=
  ht.invariant (fun _ _ ht => ht.formed) h

/-- **Lock tables are always well formed.** In every state of every run, whatever is done to
the cell in it, the table of each server that ever was has under each path a record of that
path which passes its check. The only invariant violation that anything reports is that of
the release of a lock whose record is free. -/
theorem inOrder_of_turns (lease : LeaseConfig) (latency : Nat)
    (nodes : List (Node × Addr × Addr)) (leader : Option Node)
    (ht : Turns (fun _ _ => True) (start lease latency nodes leader) c) :
    (∀ (i : Nat) (v : Server), c.servers[i]? = some v → v.InOrder c.cluster) ∧
      ∀ s a p d, (c.act s).1 = some a → a.error? = some (.lock (.invariant p d)) →
        ∃ v x, c.Releases s v x p ∧ (v.locks c.cluster).FreeRelease x p d := by
  have h := formed_of_turns ht (formed_start lease latency nodes leader)
  constructor
  · intro i v hv
    obtain ⟨hk, hw⟩ := h i v hv
    exact hk.inOrder hw c.cluster
  · intro s a p d ha he
    exact act_eq_invariant h ha he

/-- A client holds a lock; its key is deleted from the store, and the lock is opened again. -/
def reopened : List CellStep :=
  [.call "" (.rpc "a:1" (some (.initSession "x"))), .call "" (.rpc "a:1" (some (.openLock "x" "L"))),
   .call "" (.rpc "a:1" (some (.acquireLock "x" "L" .exclusive))), .store "a" (.delete "L"),
   .call "" (.rpc "a:1" (some (.openLock "x" "L"))), .manager "a" (.live "x" "s")]

/-- After that the release in the client's own session reports the violation. -/
theorem inOrder_of_reopened :
    let c := (start .fast 0 [("a", "a:1", "a:1")] (some "a")).steps reopened
    Turns (fun _ _ => True) (start .fast 0 [("a", "a:1", "a:1")] (some "a")) c ∧
      (c.act (.session "s" (.release "L"))).1.bind Answer.error? =
        some (.lock (.invariant "L" "release by x reached a FREE lock")) ∧
      (∀ (i : Nat) (v : Server), c.servers[i]? = some v → v.InOrder c.cluster) ∧
      ∀ s a p d, (c.act s).1 = some a → a.error? = some (.lock (.invariant p d)) →
        ∃ v x, c.Releases s v x p ∧ (v.locks c.cluster).FreeRelease x p d := by
  have ht : Turns (fun _ _ => True) (start .fast 0 [("a", "a:1", "a:1")] (some "a"))
      ((start .fast 0 [("a", "a:1", "a:1")] (some "a")).steps reopened) :=
    turns_steps (fun _ _ ht => ht.formed) (fun _ h => h.kept) (fun _ _ => Or.inl fun _ => trivial)
      (formed_start _ _ _ _)
  exact ⟨ht, by decide +kernel, inOrder_of_turns .fast 0 [("a", "a:1", "a:1")] (some "a") ht⟩

end Cell

end LockCell
