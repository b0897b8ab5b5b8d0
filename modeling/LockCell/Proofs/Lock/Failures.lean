import LockCell.Proofs.Lock.ReaderWriter
import LockCell.Proofs.Session.Calls

/-
  LockCell.Proofs.Lock.Failures — a lock call that fails leaves no trace.

  A call fails if it is answered with an error, or with `false`. It may have made a slot for
  its path by then, and put a record into it that was missing. Nothing is asked of the store:
  its calls may fail at any point, and what it becomes comes with success only
  (`Store.apply`). Nor is anything asked of the records, which may fail their check, bear
  another path or name owners that no session knows of. All that is asked is that no slot
  was empty (`Slots.Filled`), which every call sees to.

  For each operation that is one look at its exits: the slot is left with the record that was
  there (`inSlot_eq_self`). The only record put in on the way is a free one, and that is
  always granted (`acquire_free`). A session does its bookkeeping after the table's answer.
  So whatever is called, the calls that fail might as well not have been made
  (`run_granted`).
-/

namespace LockCell

theorem Record.acquire_free (p : Path) (c : Client) (m : Mode) :
    (free p).acquire c p m = .ok (some ((free p).grant c m)) := by
  rw [acquire_of_sound (sound_free p)]
  simp [free, Admits, ownedBy_iff]

namespace Slots

variable {t : Slots} {p : Path}

/-- Every slot holds a record. -/
def Filled (t : Slots) : Prop := ∀ p : Path, t[p]? ≠ some none

theorem filled_empty : (∅ : Slots).Filled := fun p => by simp

theorem Filled.put (h : t.Filled) (p : Path) (r : Option Record) : (t.put p r).Filled := by
  intro q
  cases r with
  | none =>
    simp only [Slots.put, Std.ExtTreeMap.getElem?_erase]
    split
    · nofun
    · exact h q
  | some r =>
    simp only [Slots.put, Std.ExtTreeMap.getElem?_insert]
    split
    · nofun
    · exact h q

/-- A slot that is left as it was found might as well not have been taken up. -/
theorem Filled.put_record? (h : t.Filled) (p : Path) : t.put p (t.record? p) = t := by
  refine Std.ExtTreeMap.ext_getElem? fun {q} => ?_
  unfold record?
  cases hp : t[p]? with
  | none =>
    simp only [Option.join_none, Slots.put, Std.ExtTreeMap.getElem?_erase,
      Std.LawfulEqCmp.compare_eq_iff_eq]
    split
    · rename_i e
      rw [← e, hp]
    · rfl
  | some x =>
    cases x with
    | none => exact absurd hp (h p)
    | some r =>
      simp only [Option.join_some, Slots.put, Std.ExtTreeMap.getElem?_insert,
        Std.LawfulEqCmp.compare_eq_iff_eq]
      split
      · rename_i e
        rw [← e, hp]
      · rfl

end Slots

namespace Locks

variable {σ : Type} {S : Store σ} {l : Locks σ} {c : Client} {p : Path} {m : Mode}

/-- Work in a slot that leaves the record and the store, unless it comes to `a`. -/
theorem inSlot_eq_self {α : Type} (h : l.slots.Filled) {a : Except Error α}
    {f : Option Record → Except Error α × Option Record × σ}
    (hf : ∀ r, (f r).1 ≠ a → (f r).2 = (r, l.store)) (hn : (l.inSlot p f).1 ≠ a) :
    (l.inSlot p f).2 = l := by
  have hs : (f (l.slots.record? p)).2 = (l.slots.record? p, l.store) := hf _ hn
  show (⟨l.slots.put p (f (l.slots.record? p)).2.1, (f (l.slots.record? p)).2.2⟩ : Locks σ) = l
  rw [hs, h.put_record?]

theorem openLock_eq_self (h : l.slots.Filled) (hn : (l.openLock S p).1 ≠ .ok ()) :
    (l.openLock S p).2 = l := by
  refine inSlot_eq_self h (fun r hr => ?_) hn
  revert hr
  cases S.has l.store p with
  | error e => exact fun _ => rfl
  | ok there =>
    cases there with
    | true => exact fun _ => rfl
    | false =>
      cases S.set l.store p [] with
      | error e => exact fun _ => rfl
      | ok s => exact fun hr => absurd rfl hr

theorem acquire_eq_self (h : l.slots.Filled) (hn : (l.acquire S c p m).1 ≠ .ok true) :
    (l.acquire S c p m).2 = l := by
  unfold acquire at hn ⊢
  by_cases hm : m.requestable = true
  · rw [if_pos hm] at hn ⊢
    refine inSlot_eq_self h (fun r hr => ?_) hn
    revert hr
    cases S.has l.store p with
    | error e => exact fun _ => rfl
    | ok there =>
      cases there with
      | false => exact fun _ => rfl
      | true =>
        cases r with
        | none =>
          -- the record that is made up on the way is a free one
          simp [Record.acquire_free]
        | some here =>
          simp only [Option.getD_some]
          rcases here.acquire c p m with _ | _ | _
          · exact fun _ => rfl
          · exact fun _ => rfl
          · exact fun hr => absurd rfl hr
  · rw [if_neg hm]

theorem release_eq_self (h : l.slots.Filled) (hn : (l.release S c p).1 ≠ .ok ()) :
    (l.release S c p).2 = l := by
  refine inSlot_eq_self h (fun r hr => ?_) hn
  revert hr
  cases S.has l.store p with
  | error e => exact fun _ => rfl
  | ok there =>
    cases there with
    | false => exact fun _ => rfl
    | true =>
      cases r with
      | none => exact fun _ => rfl
      | some here =>
        simp only
        cases here.release c p with
        | error e => exact fun _ => rfl
        | ok left => exact fun hr => absurd rfl hr

theorem delete_eq_self (h : l.slots.Filled) (hn : (l.delete S c p).1 ≠ .ok ()) :
    (l.delete S c p).2 = l := by
  refine inSlot_eq_self h (fun r hr => ?_) hn
  revert hr
  simp only
  cases r.filter (·.ownedBy c) with
  | none => exact fun _ => rfl
  | some here =>
    simp only
    split
    · cases S.has l.store p with
      | error e => exact fun _ => rfl
      | ok there =>
        cases there with
        | false => exact fun _ => rfl
        | true =>
          simp only
          cases S.delete l.store p with
          | error e => exact fun _ => rfl
          | ok s => exact fun hr => absurd rfl hr
    · exact fun _ => rfl

theorem call_eq_self (h : l.slots.Filled) {op : LockOp} (hn : (l.call S c op).1 ≠ .ok true) :
    (l.call S c op).2 = l := by
  cases op with
  | openLock p => exact openLock_eq_self h fun e => hn ((map_true_eq_ok_iff _).2 e)
  | acquireLock p m => exact acquire_eq_self h hn
  | releaseLock p => exact release_eq_self h fun e => hn ((map_true_eq_ok_iff _).2 e)
  | deleteLock p => exact delete_eq_self h fun e => hn ((map_true_eq_ok_iff _).2 e)

/-- No call leaves an empty slot. -/
theorem filled_call (h : l.slots.Filled) (c : Client) (op : LockOp) :
    (l.call S c op).2.slots.Filled := by
  cases op with
  | openLock p | releaseLock p | deleteLock p => exact h.put p _
  | acquireLock p m =>
    simp only [call, acquire]
    split
    · exact h.put p _
    · exact h

/-- The call was made and answered as it was meant. -/
def Entry.granted (e : Entry) : Bool :=
  match e.answer with
  | .ok b => b
  | .error _ => false

theorem Entry.granted_iff {e : Entry} : e.granted = true ↔ e.answer = .ok true := by
  unfold granted
  cases e.answer <;> simp

/-- Whatever is called, table and store are what the granted calls alone make of them. -/
theorem run_granted (h : l.slots.Filled) (calls : List (Client × LockOp)) :
    (l.run S (((l.run S calls).1.filter (·.granted)).map fun e => (e.client, e.op))).2 =
      (l.run S calls).2 := by
  induction calls generalizing l with
  | nil => rfl
  | cons x rest ih =>
    obtain ⟨c, op⟩ := x
    have hf := filled_call (S := S) h c op
    have hn : (l.call S c op).1 ≠ .ok true → (l.call S c op).2 = l := call_eq_self h
    revert hf hn
    simp only [run]
    generalize hx : l.call S c op = x
    obtain ⟨a, l'⟩ := x
    intro hf hn
    by_cases ha : a = .ok true
    · have hg : (Entry.mk c op a).granted = true := Entry.granted_iff.2 ha
      rw [List.filter_cons_of_pos hg]
      simp only [List.map_cons, run, hx]
      exact ih hf
    · have hg : ¬ (Entry.mk c op a).granted = true := fun h => ha (Entry.granted_iff.1 h)
      rw [List.filter_cons_of_neg hg]
      cases hn ha
      exact ih hf

end Locks

namespace Session

variable {σ : Type} {S : Store σ} {s : Session} {l : Locks σ}

theorem whenLive_eq_self {α : Type} {a : Except Error α} {f : Except Error α × Session × Locks σ}
    (hf : f.1 ≠ a → f.2 = (s, l)) (hn : (s.whenLive l f).1 ≠ a) : (s.whenLive l f).2 = (s, l) := by
  unfold whenLive at hn ⊢
  split
  · rfl
  · rename_i he
    rw [if_neg he] at hn
    exact hf hn

theorem call_eq_self (h : l.slots.Filled) {op : LockOp} (hn : (s.call S l op).1 ≠ .ok true) :
    (s.call S l op).2 = (s, l) := by
  cases op with
  | openLock p =>
    refine whenLive_eq_self (fun hf => ?_) fun e => hn ((Locks.map_true_eq_ok_iff _).2 e)
    show (s, (l.openLock S p).2) = (s, l)
    rw [Locks.openLock_eq_self h hf]
  | acquireLock p m =>
    refine whenLive_eq_self (fun hf => ?_) hn
    revert hf
    split
    · exact fun _ => rfl
    · have hl := Locks.acquire_eq_self (S := S) (c := s.client) (p := p) (m := m) h
      revert hl
      rcases l.acquire S s.client p m with ⟨_ | _ | _, l'⟩ <;> intro hl hf
      · rw [← hl nofun]
      · rw [← hl nofun]
      · exact absurd rfl hf
  | releaseLock p =>
    refine whenLive_eq_self (fun hf => ?_) fun e => hn ((Locks.map_true_eq_ok_iff _).2 e)
    revert hf
    split
    · have hl := Locks.release_eq_self (S := S) (c := s.client) (p := p) h
      revert hl
      rcases l.release S s.client p with ⟨_ | _, l'⟩ <;> intro hl hf
      · rw [← hl nofun]
      · exact absurd rfl hf
    · exact fun _ => rfl
  | deleteLock p =>
    refine whenLive_eq_self (fun hf => ?_) fun e => hn ((Locks.map_true_eq_ok_iff _).2 e)
    have hl := Locks.delete_eq_self (S := S) (c := s.client) (p := p) h
    revert hf hl
    rcases l.delete S s.client p with ⟨_ | _, l'⟩ <;> intro hf hl
    · rw [← hl nofun]
    · exact absurd rfl hf

end Session

namespace Locks

/-- **Failed lock operations leave no trace.** Over any table without an empty slot and any
store: when a call of the table or of a session is answered with an error or with `false`,
the table, its slots, the store and the session are what they were. -/
theorem no_trace_of_failure {σ : Type} (S : Store σ) (l : Locks σ) (h : l.slots.Filled)
    (op : LockOp) :
    (∀ c, (l.call S c op).1 ≠ .ok true → (l.call S c op).2 = l) ∧
      ∀ s : Session, (s.call S l op).1 ≠ .ok true → (s.call S l op).2 = (s, l) :=
  ⟨fun _ hn => call_eq_self h hn, fun _ hn => Session.call_eq_self h hn⟩

/-- A lock exists whose record is another lock's and has two exclusive owners; `b` leads. -/
def flawed : Locks Cluster where
  slots := Slots.put ∅ "L" (some ⟨"M", .exclusive, (∅ : Names).insert "c" |>.insert "d"⟩)
  store := (Cluster.empty.elect "b").commit (.set "L" [])

theorem no_trace_of_failure_of_flawed :
    let S := Cluster.storeOf "a"
    let s := Session.begin "e" .default 0
    let acquired := flawed.call S "e" (.acquireLock "L" .shared)
    let opened := s.call S flawed (.openLock "N")
    flawed.slots.Filled ∧
      acquired.1 = .error (.lock (.invariant "M" "EXCLUSIVE but owned by 2 clients")) ∧
      acquired.2 = flawed ∧ opened.1 = .error (.notLeader none) ∧ opened.2 = (s, flawed) := by
  have hf : flawed.slots.Filled := Slots.filled_empty.put _ _
  have ha : (flawed.call (Cluster.storeOf "a") "e" (.acquireLock "L" .shared)).1 =
      .error (.lock (.invariant "M" "EXCLUSIVE but owned by 2 clients")) := by
    rfl
  have ho : ((Session.begin "e" .default 0).call (Cluster.storeOf "a") flawed (.openLock "N")).1 =
      .error (.notLeader none) := by
    rfl
  exact ⟨hf, ha, (no_trace_of_failure _ _ hf _).1 "e" (by rw [ha]; nofun), ho,
    (no_trace_of_failure _ _ hf _).2 _ (by rw [ho]; nofun)⟩

end Locks

end LockCell
