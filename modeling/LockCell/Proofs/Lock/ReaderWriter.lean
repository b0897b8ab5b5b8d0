import LockCell.Client.Session
import LockCell.Proofs.Lock.Operations

/-
  LockCell.Proofs.Lock.ReaderWriter — a lock table is a reader-writer lock for each path.

  Any clients make any calls of one table, one after another, and the calls with their
  answers are written down (`run`). The table starts empty over an empty store that its
  server leads. What exists and who holds what can then be read off what was written:
  a lock exists if it was opened and not deleted since (`Opened`), and a client holds it in
  the mode of its last granted acquire unless it released it or somebody deleted it since
  (`Held`). The next call of any client is answered as these two say (`ReaderWriter`).

  One call keeps store and table in step with the record of the calls (`step_inStep`), so
  every sequence of calls does (`run_inStep`).
-/

namespace LockCell

namespace Locks

/-- A call of the table, and its answer. -/
structure Entry where
  client : Client
  op : LockOp
  answer : Except Error Bool

/-- Makes a call for a client; only an acquire can be answered with `false`. -/
def call {σ : Type} (S : Store σ) (l : Locks σ) (c : Client) : LockOp → Except Error Bool × Locks σ
  | .openLock p =>
    let (r, l) := l.openLock S p
    (r.map fun _ => true, l)
  | .acquireLock p m => l.acquire S c p m
  | .releaseLock p =>
    let (r, l) := l.release S c p
    (r.map fun _ => true, l)
  | .deleteLock p =>
    let (r, l) := l.delete S c p
    (r.map fun _ => true, l)

/-- Makes calls one after another and writes them down. -/
def run {σ : Type} (S : Store σ) (l : Locks σ) : List (Client × LockOp) → List Entry × Locks σ
  | [] => ([], l)
  | (c, op) :: rest =>
    let (a, l) := l.call S c op
    let (past, l) := run S l rest
    (⟨c, op, a⟩ :: past, l)

/-! ## What the past says -/

def Entry.Opens (e : Entry) (p : Path) : Prop := e.op = .openLock p ∧ e.answer = .ok true

def Entry.Deletes (e : Entry) (p : Path) : Prop := e.op = .deleteLock p ∧ e.answer = .ok true

def Entry.Grants (e : Entry) (c : Client) (p : Path) (m : Mode) : Prop :=
  e.client = c ∧ e.op = .acquireLock p m ∧ e.answer = .ok true

def Entry.Releases (e : Entry) (c : Client) (p : Path) : Prop :=
  e.client = c ∧ e.op = .releaseLock p ∧ e.answer = .ok true

/-- Something like `P` happened and nothing like `Q` since. -/
def Since (P Q : Entry → Prop) (past : List Entry) : Prop :=
  ∃ before e after, past = before ++ e :: after ∧ P e ∧ ∀ d ∈ after, ¬ Q d

/-- The lock was opened and has not been deleted since. -/
def Opened (past : List Entry) (p : Path) : Prop := Since (·.Opens p) (·.Deletes p) past

/-- The client was granted the lock in the mode `m`, and since then has not released it, nor
has anybody deleted it. -/
def Held (past : List Entry) (c : Client) (p : Path) (m : Mode) : Prop :=
  Since (·.Grants c p m) (fun e => e.Releases c p ∨ e.Deletes p) past

theorem not_since_nil (P Q : Entry → Prop) : ¬ Since P Q [] := by
  intro hx
  obtain ⟨before, e, after, h, -⟩ := hx
  simp at h

theorem since_concat (P Q : Entry → Prop) (past : List Entry) (e : Entry) :
    Since P Q (past ++ [e]) ↔ P e ∨ Since P Q past ∧ ¬ Q e := by
  constructor
  · intro hx
    obtain ⟨before, x, after, h, hP, hQ⟩ := hx
    rcases List.eq_nil_or_concat after with rfl | ⟨after, y, rfl⟩
    · left
      have := List.append_inj_right' h rfl
      simp only [List.cons.injEq, and_true] at this
      rw [this]
      exact hP
    · right
      rw [List.concat_eq_append, ← List.cons_append, ← List.append_assoc] at h
      obtain ⟨hp, he⟩ := List.append_inj' h rfl
      simp only [List.cons.injEq, and_true] at he
      subst he
      exact ⟨⟨before, x, after, hp, hP, fun d hd => hQ d (by simp [hd])⟩, hQ e (by simp)⟩
  · intro ha
    rcases ha with hP | ⟨⟨before, x, after, rfl, hP, hQ⟩, hn⟩
    · exact ⟨past, e, [], rfl, hP, by simp⟩
    · refine ⟨before, x, after ++ [e], by simp, hP, fun d hd => ?_⟩
      rcases List.mem_append.1 hd with hd | hd
      · exact hQ d hd
      · rw [List.mem_singleton.1 hd]
        exact hn

/-! ## The table keeps in step -/

/-- Store and table are what the past says. -/
structure InStep (n : Node) (past : List Entry) (l : Locks Cluster) : Prop where
  leads : l.store.leads n = true
  sound : l.slots.Sound
  exists_iff : ∀ p, p ∈ l.store.contents ↔ Opened past p
  holds_iff : ∀ c p m, l.slots.Holds c p m ↔ Held past c p m
  /-- What is held exists. -/
  stored : ∀ c p m, l.slots.Holds c p m → p ∈ l.store.contents

variable {n : Node} {past : List Entry} {l : Locks Cluster}

theorem map_true_eq_ok_iff (r : Except Error Unit) :
    r.map (fun _ => true) = .ok true ↔ r = .ok () := by
  cases r <;> simp [Except.map]

theorem inStep_openLock (h : InStep n past l) (c : Client) (p : Path) :
    InStep n (past ++ [⟨c, .openLock p, (l.call (Cluster.storeOf n) c (.openLock p)).1⟩])
      (l.call (Cluster.storeOf n) c (.openLock p)).2 := by
  have hok := (openLock_eq_ok_iff n l p).2 (Or.inr h.leads)
  have hholds : ∀ d q k, (l.openLock (Cluster.storeOf n) p).2.slots.Holds d q k ↔
      l.slots.Holds d q k := fun d q k => by
    rw [holds_openLock]
    constructor
    · exact And.left
    · intro hd
      refine ⟨hd, ?_⟩
      intro hx
      obtain ⟨hp, -, rfl⟩ := hx
      exact hp (h.stored d q k hd)
  refine ⟨?_, sound_openLock n h.sound p, fun q => ?_, fun d q k => ?_, fun d q k hd => ?_⟩
  · exact (Cluster.leads_of_leader_eq (leader_openLock n l p) n).trans h.leads
  · simp only [call, mem_openLock, h.leads, h.exists_iff, Opened, since_concat, Entry.Opens,
      Entry.Deletes, map_true_eq_ok_iff, hok]
    simp [or_comm, eq_comm (a := q)]
  · simp only [call, hholds, h.holds_iff, Held, since_concat, Entry.Grants, Entry.Releases,
      Entry.Deletes]
    simp
  · have hd := h.stored d q k ((hholds d q k).1 hd)
    exact (mem_openLock n l p q).2 (Or.inl hd)

theorem inStep_acquire (h : InStep n past l) (c : Client) (p : Path) (m : Mode) :
    InStep n (past ++ [⟨c, .acquireLock p m, (l.acquire (Cluster.storeOf n) c p m).1⟩])
      (l.acquire (Cluster.storeOf n) c p m).2 := by
  have hs := store_acquire n h.sound c p m
  refine ⟨?_, sound_acquire n h.sound c p m, fun q => ?_, fun d q k => ?_, fun d q k hd => ?_⟩
  · rw [hs]
    exact h.leads
  · rw [hs, h.exists_iff]
    simp only [Opened, since_concat, Entry.Opens, Entry.Deletes]
    simp
  · rw [holds_acquire n h.sound, h.holds_iff]
    simp only [Held, since_concat, Entry.Grants, Entry.Releases, Entry.Deletes]
    simp [or_comm, and_comm, and_assoc, eq_comm (a := d), eq_comm (a := q), eq_comm (a := k)]
  · rw [hs]
    rcases (holds_acquire n h.sound c d p q m k).1 hd with hd | ⟨hok, -, rfl, -⟩
    · exact h.stored d q k hd
    · exact ((acquire_eq_true_iff n h.sound c q m).1 hok).2.1

theorem inStep_release (h : InStep n past l) (c : Client) (p : Path) :
    InStep n (past ++ [⟨c, .releaseLock p, (l.call (Cluster.storeOf n) c (.releaseLock p)).1⟩])
      (l.call (Cluster.storeOf n) c (.releaseLock p)).2 := by
  have hs := store_release n h.sound c p
  refine ⟨?_, sound_release n h.sound c p, fun q => ?_, fun d q k => ?_, fun d q k hd => ?_⟩
  · simp only [call, hs]
    exact h.leads
  · simp only [call, hs, h.exists_iff, Opened, since_concat, Entry.Opens, Entry.Deletes]
    simp
  · have hok := release_eq_ok_iff n h.sound c p
    simp only [call, holds_release n h.sound, Held, since_concat, Entry.Grants, Entry.Releases,
      Entry.Deletes, map_true_eq_ok_iff, hok]
    constructor
    · intro hx
      obtain ⟨hd, hn⟩ := hx
      refine Or.inr ⟨(h.holds_iff d q k).1 hd, ?_⟩
      intro ha
      rcases ha with ⟨rfl, he, hp, -⟩ | ⟨he, -⟩
      · cases he
        exact hn ⟨hp, rfl, rfl⟩
      · cases he
    · intro hu
      rcases hu with ⟨-, he, -⟩ | ⟨hd, hn⟩
      · cases he
      · have hd := (h.holds_iff d q k).2 hd
        refine ⟨hd, ?_⟩
        intro hq
        obtain ⟨hp, rfl, rfl⟩ := hq
        exact hn (Or.inl ⟨rfl, rfl, hp, k, hd⟩)
  · simp only [call, hs]
    exact h.stored d q k ((holds_release n h.sound c d p q k).1 hd).1

theorem inStep_delete (h : InStep n past l) (c : Client) (p : Path) :
    InStep n (past ++ [⟨c, .deleteLock p, (l.call (Cluster.storeOf n) c (.deleteLock p)).1⟩])
      (l.call (Cluster.storeOf n) c (.deleteLock p)).2 := by
  refine ⟨?_, sound_delete n h.sound c p, fun q => ?_, fun d q k => ?_, fun d q k hd => ?_⟩
  · exact (Cluster.leads_of_leader_eq (leader_delete n c p) n).trans h.leads
  · simp only [call, mem_delete, h.exists_iff, Opened, since_concat, Entry.Opens, Entry.Deletes,
      map_true_eq_ok_iff]
    simp [and_comm, eq_comm (a := q)]
  · simp only [call, holds_delete, h.holds_iff, Held, since_concat, Entry.Grants, Entry.Releases,
      Entry.Deletes, map_true_eq_ok_iff]
    simp [and_comm, eq_comm (a := q)]
  · have hd := (holds_delete n c d p q k).1 hd
    exact (mem_delete n c p q).2 ⟨h.stored d q k hd.1, hd.2⟩

theorem step_inStep (h : InStep n past l) (c : Client) (op : LockOp) :
    InStep n (past ++ [⟨c, op, (l.call (Cluster.storeOf n) c op).1⟩])
      (l.call (Cluster.storeOf n) c op).2 := by
  cases op with
  | openLock p => exact inStep_openLock h c p
  | acquireLock p m => exact inStep_acquire h c p m
  | releaseLock p => exact inStep_release h c p
  | deleteLock p => exact inStep_delete h c p

theorem run_inStep (calls : List (Client × LockOp)) :
    ∀ {past : List Entry} {l : Locks Cluster}, InStep n past l →
      InStep n (past ++ (l.run (Cluster.storeOf n) calls).1) (l.run (Cluster.storeOf n) calls).2 := by
  induction calls with
  | nil =>
    intro past l h
    simpa [run] using h
  | cons x rest ih =>
    intro past l h
    obtain ⟨c, op⟩ := x
    have := ih (step_inStep h c op)
    rw [List.append_assoc] at this
    exact this

theorem inStep_start {k : Cluster} (hk : k.contents = ∅) (hl : k.leads n = true) :
    InStep n [] ⟨∅, k⟩ where
  leads := hl
  sound := Slots.sound_empty
  exists_iff p := by simp [hk, Opened, not_since_nil]
  holds_iff c p m := by simp [Slots.not_holds_empty, Held, not_since_nil]
  stored c p m h := absurd h (Slots.not_holds_empty c p m)

/-! ## A reader-writer lock for each path -/

/-- The client is an owner of the lock. -/
def Owned (past : List Entry) (c : Client) (p : Path) : Prop := ∃ m, Held past c p m

/-- Nobody owns the lock, or all owners and `m` are shared. -/
def Free (past : List Entry) (p : Path) (m : Mode) : Prop :=
  (∀ c, ¬ Owned past c p) ∨ m = .shared ∧ ∀ c, Owned past c p → Held past c p .shared

/-- Store, table and the answer to the next call, whoever makes it, are those of a
reader-writer lock for each path with the past `past`. -/
structure ReaderWriter (n : Node) (past : List Entry) (l : Locks Cluster) : Prop where
  exists_iff : ∀ p, p ∈ l.store.contents ↔ Opened past p
  owner_iff : ∀ c p, (∃ r, l.slots.record? p = some r ∧ c ∈ r.owners) ↔ Owned past c p
  granted_iff : ∀ c p m, (l.acquire (Cluster.storeOf n) c p m).1 = .ok true ↔
    m.requestable = true ∧ Opened past p ∧ ¬ Owned past c p ∧ Free past p m
  busy_iff : ∀ c p m, (l.acquire (Cluster.storeOf n) c p m).1 = .ok false ↔
    m.requestable = true ∧ Opened past p ∧ ¬ Owned past c p ∧ ¬ Free past p m
  released_iff : ∀ c p, (l.release (Cluster.storeOf n) c p).1 = .ok () ↔ Owned past c p
  deleted_iff : ∀ c p, (l.delete (Cluster.storeOf n) c p).1 = .ok () ↔
    Held past c p .exclusive ∧ ∀ d, Owned past d p → d = c
  /-- A deleted lock leaves neither a record nor an entry in the store. -/
  gone_of_deleted : ∀ c p, (l.delete (Cluster.storeOf n) c p).1 = .ok () →
    (l.delete (Cluster.storeOf n) c p).2.slots.record? p = none ∧
      p ∉ (l.delete (Cluster.storeOf n) c p).2.store.contents

theorem InStep.admits_iff (h : InStep n past l) (p : Path) (m : Mode) :
    l.slots.Admits p m ↔ Free past p m := by
  simp only [Slots.Admits, Free, Owned, ← h.holds_iff, not_exists]
  constructor
  · intro hx
    rcases hx with hn | ⟨rfl, hall⟩
    · exact Or.inl hn
    · refine Or.inr ⟨rfl, ?_⟩
      intro c he
      obtain ⟨k, hc⟩ := he
      rw [← hall c k hc]
      exact hc
  · intro ha
    rcases ha with hn | ⟨rfl, hall⟩
    · exact Or.inl hn
    · exact Or.inr ⟨rfl, fun c k hc => hc.mode_eq (hall c ⟨k, hc⟩)⟩

theorem InStep.readerWriter (h : InStep n past l) : ReaderWriter n past l where
  exists_iff := h.exists_iff
  owner_iff c p := by
    simp only [Owned, ← h.holds_iff]
    constructor
    · intro hx
      obtain ⟨r, hr, hc⟩ := hx
      exact ⟨r.mode, r, hr, hc, rfl⟩
    · intro he
      obtain ⟨m, r, hr, hc, -⟩ := he
      exact ⟨r, hr, hc⟩
  granted_iff c p m := by
    rw [acquire_eq_true_iff n h.sound, h.admits_iff, ← h.exists_iff]
    simp only [Owned, ← h.holds_iff, not_exists]
  busy_iff c p m := by
    rw [acquire_eq_false_iff n h.sound, h.admits_iff, ← h.exists_iff]
    simp only [Owned, ← h.holds_iff, not_exists]
  released_iff c p := by
    rw [release_eq_ok_iff n h.sound]
    simp only [Owned, ← h.holds_iff]
    constructor
    · exact And.right
    · intro ha
      obtain ⟨k, hc⟩ := ha
      exact ⟨h.stored c p k hc, k, hc⟩
  deleted_iff c p := by
    rw [delete_eq_ok_iff, ← h.holds_iff]
    constructor
    · intro hu
      obtain ⟨hc, -⟩ := hu
      refine ⟨hc, ?_⟩
      intro d hq
      obtain ⟨k, hd⟩ := hq
      exact hc.eq_of_exclusive h.sound ((h.holds_iff d p k).2 hd)
    · intro hz
      obtain ⟨hc, -⟩ := hz
      exact ⟨hc, h.stored c p _ hc, h.leads⟩
  gone_of_deleted c p hok := by
    refine ⟨record?_of_delete_eq_ok n hok, fun hp => ?_⟩
    exact ((mem_delete n c p p).1 hp).2 ⟨hok, rfl⟩

/-- Whatever calls are made of an empty table over an empty store, by whatever clients, table
and store are those of a reader-writer lock for each path. -/
theorem readerWriter_of_calls {k : Cluster} (hk : k.contents = ∅) (hl : k.leads n = true)
    (calls : List (Client × LockOp)) :
    ReaderWriter n ((Locks.mk ∅ k).run (Cluster.storeOf n) calls).1
      ((Locks.mk ∅ k).run (Cluster.storeOf n) calls).2 := by
  have h := run_inStep calls (inStep_start hk hl)
  rw [List.nil_append] at h
  exact h.readerWriter

/-- Two readers share a lock, and a writer takes it over from the second one. -/
def relay : List (Client × LockOp) :=
  [("x", .openLock "/L"), ("x", .acquireLock "/L" .shared), ("y", .acquireLock "/L" .shared),
    ("z", .acquireLock "/L" .exclusive), ("x", .releaseLock "/L"), ("y", .releaseLock "/L"),
    ("z", .acquireLock "/L" .exclusive), ("z", .deleteLock "/L")]

theorem readerWriter_of_relay :
    (Cluster.empty.elect "a").contents = ∅ ∧ (Cluster.empty.elect "a").leads "a" = true ∧
      ReaderWriter "a"
        ((Locks.mk ∅ (Cluster.empty.elect "a")).run (Cluster.storeOf "a") relay).1
        ((Locks.mk ∅ (Cluster.empty.elect "a")).run (Cluster.storeOf "a") relay).2 :=
  ⟨rfl, by decide, readerWriter_of_calls rfl (by decide) relay⟩

end Locks

end LockCell
