import LockCell.Lock.Slot

/-
  LockCell.Proofs.Lock.Linking — tasks at one path have their turns one after another.

  A task has its turn from the check that it passes until it leaves its slot, unlinked if it is
  empty. `Moves` lists all that an act can do. Three things stand in every state that tasks
  come to, however their acts are mixed (`Kept`): a slot's mutex is with the task that says so,
  the slot that a task works in is the linked one, and so is every slot with a record. So a
  task that wakes up with the mutex of an unlinked slot does not pass its check, and one that
  passes finds nobody else at work (`Kept.idle_of_passes`).

  A run is told by what its turns have seen, written and left (`notes`). It goes from turn to
  turn, and each of them sees what the one before it has left (`InTurns`, `turns_of_run`).
-/

namespace LockCell

namespace TurnStage

/-- The slot whose mutex the task has. -/
def mutex? : TurnStage → Option Nat
  | idle | waiting _ => none
  | locked i | working i | leaving i => some i

end TurnStage

namespace Linking

variable {l m : Linking} {t u i j : Nat} {a : TurnAct} {acts : List (Nat × TurnAct)}

/-- All that an act can do. -/
inductive Moves (l : Linking) (t : Nat) : TurnAct → Linking → Prop
  | takesUp {i : Nat} : l.stage t = .idle → l.linked = some i →
      Moves l t .link (l.goTo t (.waiting i))
  | makes : l.stage t = .idle → l.linked = none →
      Moves l t .link { l.goTo t (.waiting l.made) with linked := some l.made, made := l.made + 1 }
  | locks {i : Nat} : l.stage t = .waiting i → l.holder i = none →
      Moves l t .lock { l.goTo t (.locked i) with holder := upd l.holder i (some t) }
  | passes {i : Nat} : l.stage t = .locked i → l.linked = some i →
      Moves l t .check (l.goTo t (.working i))
  /-- The slot has been unlinked in the meantime. -/
  | fails {i : Nat} : l.stage t = .locked i → l.linked ≠ some i →
      Moves l t .check (l.goTo t (.leaving i))
  | writes {i : Nat} (r : Option Record) : l.stage t = .working i →
      Moves l t (.write r) { l with record := upd l.record i r }
  | leaves {i : Nat} : l.stage t = .working i → l.record i ≠ none ∨ l.linked ≠ some i →
      Moves l t .unlink (l.goTo t (.leaving i))
  /-- The slot is left empty. -/
  | unlinks {i : Nat} : l.stage t = .working i → l.record i = none → l.linked = some i →
      Moves l t .unlink { l.goTo t (.leaving i) with linked := none }
  | unlocks {i : Nat} : l.stage t = .leaving i →
      Moves l t .unlock { l.goTo t .idle with holder := upd l.holder i none }

theorem moves_of_step? (h : l.step? t a = some m) : l.Moves t a m := by
  unfold step? at h
  split at h
  · rename_i hs
    split at h <;> cases h
    · exact .takesUp hs ‹_›
    · exact .makes hs ‹_›
  · rename_i i hs
    split at h <;> cases h
    exact .locks hs ‹_›
  · rename_i i hs
    cases h
    split
    · exact .passes hs ‹_›
    · exact .fails hs ‹_›
  · rename_i r i hs
    cases h
    exact .writes r hs
  · rename_i i hs
    cases h
    by_cases he : l.record i = none ∧ l.linked = some i
    · obtain ⟨hr, hi⟩ := he
      simpa [hr, hi] using Moves.unlinks hs hr hi
    · have hb : ((l.record i).isNone && l.linked == some i) = false := by
        simpa using he
      simp only [hb]
      exact .leaves hs (Decidable.not_and_iff_not_or_not.1 he)
  · rename_i i hs
    cases h
    exact .unlocks hs
  · cases h

/-! ## What stands in every state -/

/-- Whose a mutex is, and what is linked. -/
structure Kept (l : Linking) : Prop where
  holder_iff : ∀ t i, l.holder i = some t ↔ (l.stage t).mutex? = some i
  linked_of_working : ∀ t i, l.stage t = .working i → l.linked = some i
  linked_of_record : ∀ i, l.record i ≠ none → l.linked = some i

theorem kept_empty : Kept {} where
  holder_iff t i := by simp [TurnStage.mutex?]
  linked_of_working t i h := by cases h
  linked_of_record i h := absurd rfl h

/-- A mutex is with one task. -/
theorem Kept.eq_of_mutex (h : l.Kept) (ht : (l.stage t).mutex? = some i)
    (hu : (l.stage u).mutex? = some i) : t = u := by
  have hi := (h.holder_iff t i).2 ht
  rw [(h.holder_iff u i).2 hu] at hi
  exact (Option.some.inj hi).symm

/-- No two tasks are at work. -/
theorem Kept.eq_of_working (h : l.Kept) (ht : l.stage t = .working i)
    (hu : l.stage u = .working j) : t = u := by
  have hi := h.linked_of_working t i ht
  rw [h.linked_of_working u j hu] at hi
  cases hi
  exact h.eq_of_mutex (by rw [ht]; rfl) (by rw [hu]; rfl)

/-- A task that passes its check finds nobody at work. -/
theorem Kept.idle_of_passes (h : l.Kept) (ht : l.stage t = .locked i) (hl : l.linked = some i)
    (u j : Nat) : l.stage u ≠ .working j := by
  intro hu
  have hj := h.linked_of_working u j hu
  rw [hl] at hj
  cases hj
  obtain rfl := h.eq_of_mutex (t := t) (u := u) (by rw [ht]; rfl) (by rw [hu]; rfl)
  cases ht.symm.trans hu

theorem stage_goTo (l : Linking) (t u : Nat) (s : TurnStage) :
    (l.goTo t s).stage u = if u = t then s else l.stage u := rfl

/-- A task goes to another stage with the mutex that it has. -/
theorem Kept.holder_goTo (h : l.Kept) {s : TurnStage} (hs : (l.stage t).mutex? = s.mutex?)
    (u j : Nat) : l.holder j = some u ↔ ((l.goTo t s).stage u).mutex? = some j := by
  rw [stage_goTo, h.holder_iff]
  split
  · rename_i e
    rw [e, hs]
  · rfl

/-- Nobody comes to work. -/
theorem Kept.linked_goTo (h : l.Kept) {s : TurnStage} (hs : ∀ i, s ≠ .working i) (u j : Nat)
    (hu : (l.goTo t s).stage u = .working j) : u ≠ t ∧ l.linked = some j := by
  rw [stage_goTo] at hu
  split at hu
  · exact absurd hu (hs j)
  · rename_i hne
    exact ⟨hne, h.linked_of_working u j hu⟩

theorem Moves.kept (h : l.Kept) (hm : l.Moves t a m) : m.Kept := by
  cases hm with
  | takesUp hs | fails hs | leaves hs =>
    exact ⟨h.holder_goTo (by rw [hs]; rfl), fun u j hu => (h.linked_goTo (by simp) u j hu).2,
      h.linked_of_record⟩
  | makes hs hl =>
    refine ⟨h.holder_goTo (by rw [hs]; rfl), fun u j hu => ?_, fun j hj => ?_⟩
    · cases hl.symm.trans (h.linked_goTo (by simp) u j hu).2
    · cases hl.symm.trans (h.linked_of_record j hj)
  | @locks i hs hn =>
    refine ⟨fun u j => ?_, fun u j hu => (h.linked_goTo (by simp) u j hu).2, h.linked_of_record⟩
    have ht : l.holder j ≠ some t := by simp [h.holder_iff, hs, TurnStage.mutex?]
    have hu := h.holder_iff u j
    change upd l.holder i (some t) j = some u ↔ _
    rw [stage_goTo]
    grind [upd, TurnStage.mutex?]
  | @passes i hs hl =>
    refine ⟨h.holder_goTo (by rw [hs]; rfl), fun u j hu => ?_, h.linked_of_record⟩
    rw [stage_goTo] at hu
    split at hu
    · cases hu
      exact hl
    · exact h.linked_of_working u j hu
  | @writes i r hs =>
    refine ⟨h.holder_iff, h.linked_of_working, fun j hj => ?_⟩
    by_cases e : j = i
    · rw [e]
      exact h.linked_of_working t i hs
    · exact h.linked_of_record j ((congrArg (· ≠ none) (upd_of_ne l.record r e)).mp hj)
  | @unlinks i hs hr hl =>
    refine ⟨h.holder_goTo (by rw [hs]; rfl), fun u j hu => ?_, fun j hj => ?_⟩
    · obtain ⟨hne, -⟩ := h.linked_goTo (by simp) u j hu
      rw [stage_goTo, if_neg hne] at hu
      exact absurd (h.eq_of_working hu hs) hne
    · have hj' := h.linked_of_record j hj
      rw [hl] at hj'
      cases hj'
      exact absurd hr hj
  | @unlocks i hs =>
    refine ⟨fun u j => ?_, fun u j hu => (h.linked_goTo (by simp) u j hu).2, h.linked_of_record⟩
    have ht : l.holder j = some t ↔ j = i := by
      rw [h.holder_iff, hs]
      exact ⟨fun e => (Option.some.inj e).symm, fun e => by rw [e]; rfl⟩
    have hu := h.holder_iff u j
    change upd l.holder i none j = some u ↔ _
    rw [stage_goTo]
    grind [upd, TurnStage.mutex?]

/-! ## What the turns see and leave -/

/-- What there is to say of the turns. -/
inductive Note where
  /-- The task passes its check and finds the record of its slot. -/
  | saw (task : Nat) (r : Option Record)
  | wrote (task : Nat) (r : Option Record)
  /-- The task has done, and this is the record of its slot. -/
  | left (task : Nat) (r : Option Record)
  deriving DecidableEq

def note? (l : Linking) (t : Nat) (a : TurnAct) : Option Note :=
  match a, l.stage t with
  | .check, .locked i => if l.linked = some i then some (.saw t (l.record i)) else none
  | .write r, .working _ => some (.wrote t r)
  | .unlink, .working i => some (.left t (l.record i))
  | _, _ => none

/-- What there is to say of a run. -/
def notes (l : Linking) : List (Nat × TurnAct) → List Note
  | [] => []
  | (t, a) :: acts =>
    match l.step? t a with
    | none => []
    | some m => (l.note? t a).toList ++ m.notes acts

/-- Who has its turn, and the record that was written last. -/
structure Stand where
  turn : Option Nat
  record : Option Record

/-- The turns come one after another, from one stand to another. -/
inductive InTurns : Stand → List Note → Stand → Prop
  | ends {s} : InTurns s [] s
  | saw {t r ns s} : InTurns ⟨some t, r⟩ ns s → InTurns ⟨none, r⟩ (.saw t r :: ns) s
  | wrote {t r r' ns s} : InTurns ⟨some t, r'⟩ ns s → InTurns ⟨some t, r⟩ (.wrote t r' :: ns) s
  | left {t r ns s} : InTurns ⟨none, r⟩ ns s → InTurns ⟨some t, r⟩ (.left t r :: ns) s

/-- Who has its turn. -/
def HasTurn (l : Linking) (turn : Option Nat) : Prop :=
  ∀ t, (∃ i, l.stage t = .working i) ↔ turn = some t

variable {turn : Option Nat}

theorem hasTurn_empty : HasTurn {} none := fun t => by simp

theorem HasTurn.eq (h : l.HasTurn turn) (ht : l.stage t = .working i) : turn = some t :=
  (h t).1 ⟨i, ht⟩

/-- The task neither comes to work nor stops. -/
theorem HasTurn.of_stage (h : l.HasTurn turn) {s : TurnStage} (hm : m.stage = upd l.stage t s)
    (ht : ∀ i, l.stage t ≠ .working i) (hs : ∀ i, s ≠ .working i) : m.HasTurn turn := by
  intro u
  rw [← h u, hm]
  by_cases e : u = t
  · simp [e, ht, hs]
  · simp [upd_of_ne _ _ e]

theorem Kept.hasTurn_of_passes (h : l.Kept) (ht : l.stage t = .locked i) (hl : l.linked = some i) :
    l.HasTurn none := by
  intro u
  simp [h.idle_of_passes ht hl u]

theorem HasTurn.begins (h : l.HasTurn none) : (l.goTo t (.working i)).HasTurn (some t) := by
  intro u
  rw [stage_goTo]
  split
  · rename_i e
    simp [e]
  · rename_i hne
    simpa [Ne.symm hne] using h u

theorem Kept.hasTurn_of_stops (h : l.Kept) (ht : l.stage t = .working i)
    (hm : m.stage = upd l.stage t (.leaving i)) : m.HasTurn none := by
  intro u
  rw [hm]
  by_cases e : u = t
  · simp [e]
  · simp only [upd_of_ne _ _ e, reduceCtorEq, iff_false, not_exists]
    exact fun j hu => e (h.eq_of_working hu ht)

theorem record?_of_linked (h : l.linked = some i) : l.record? = l.record i := by
  rw [record?, h]
  rfl

/-- Whatever comes in turns after an act, comes in turns with what the act tells before it. -/
theorem Kept.inTurns_of_moves (h : l.Kept) (hw : l.HasTurn turn) (hm : l.Moves t a m) :
    ∃ turn', m.HasTurn turn' ∧ ∀ ns s, InTurns ⟨turn', m.record?⟩ ns s →
      InTurns ⟨turn, l.record?⟩ ((l.note? t a).toList ++ ns) s := by
  cases hm with
  | takesUp hs | locks hs | unlocks hs =>
    refine ⟨turn, hw.of_stage rfl (by simp [hs]) (by simp), fun ns s hn => ?_⟩
    simp only [note?]
    exact hn
  | fails hs hl =>
    refine ⟨turn, hw.of_stage rfl (by simp [hs]) (by simp), fun ns s hn => ?_⟩
    simp only [note?, hs, if_neg hl]
    exact hn
  | makes hs hl =>
    refine ⟨turn, hw.of_stage rfl (by simp [hs]) (by simp), fun ns s hn => ?_⟩
    have hmade : l.record l.made = none :=
      Decidable.byContradiction fun hr => by cases hl.symm.trans (h.linked_of_record _ hr)
    have hr : l.record? = l.record l.made := by
      rw [hmade, record?, hl]
      rfl
    simp only [note?, hr]
    exact hn
  | passes hs hl =>
    have hnone := h.hasTurn_of_passes hs hl
    obtain rfl : turn = none := by
      cases turn with
      | none => rfl
      | some u => cases (hnone u).1 ((hw u).2 rfl)
    refine ⟨some t, hnone.begins, fun ns s hn => ?_⟩
    simp only [note?, hs, if_pos hl, ← record?_of_linked hl]
    exact .saw hn
  | @writes i r hs =>
    obtain rfl := hw.eq hs
    refine ⟨some t, hw, fun ns s hn => ?_⟩
    simp only [note?, hs]
    have hi : ({ l with record := upd l.record i r } : Linking).linked = some i :=
      h.linked_of_working t i hs
    have hr := (record?_of_linked hi).trans (upd_same l.record i r)
    exact .wrote (hr ▸ hn)
  | leaves hs =>
    obtain rfl := hw.eq hs
    refine ⟨none, h.hasTurn_of_stops hs rfl, fun ns s hn => ?_⟩
    simp only [note?, hs, ← record?_of_linked (h.linked_of_working _ _ hs)]
    exact .left hn
  | unlinks hs hr hl =>
    obtain rfl := hw.eq hs
    refine ⟨none, h.hasTurn_of_stops hs rfl, fun ns s hn => ?_⟩
    simp only [note?, hs, record?_of_linked hl, hr]
    exact .left hn

/-- A run keeps what stands, and its turns come one after another. -/
theorem Kept.run (h : l.Kept) (hw : l.HasTurn turn) (hr : l.run? acts = some m) :
    m.Kept ∧ ∃ turn', m.HasTurn turn' ∧
      InTurns ⟨turn, l.record?⟩ (l.notes acts) ⟨turn', m.record?⟩ := by
  induction acts generalizing l turn with
  | nil =>
    cases hr
    exact ⟨h, turn, hw, .ends⟩
  | cons act acts ih =>
    obtain ⟨t, a⟩ := act
    obtain ⟨k, hk, hr⟩ : ∃ k, l.step? t a = some k ∧ k.run? acts = some m := by
      rw [run?, List.foldlM_cons] at hr
      exact Option.bind_eq_some_iff.1 hr
    have hm := moves_of_step? hk
    obtain ⟨turn', hw', hn⟩ := h.inTurns_of_moves hw hm
    obtain ⟨hkept, last, hlast, hns⟩ := ih (hm.kept h) hw' hr
    rw [notes, hk]
    exact ⟨hkept, last, hlast, hn _ _ hns⟩

/-! ## The promise -/

/-- How tasks have their turns at a path. -/
structure Exclusive (l : Linking) : Prop where
  /-- Nobody else is at work, not even when one is about to give up the mutex of a slot that it
  has left linked. -/
  alone : ∀ t i u j, (l.stage t).mutex? = some i → l.linked = some i →
    l.stage u = .working j → u = t
  /-- The path leads to the slot that a task works in. -/
  linked : ∀ t i, l.stage t = .working i → l.linked = some i
  /-- A record is never left behind. -/
  reached : ∀ i, l.record i ≠ none → l.linked = some i
  /-- A slot is not unlinked while it has a record. -/
  stays : ∀ t a m i, l.step? t a = some m → l.linked = some i → l.record i ≠ none →
    m.linked = some i

theorem Moves.linked (hm : l.Moves t a m) (hl : l.linked = some i) (hr : l.record i ≠ none) :
    m.linked = some i := by
  cases hm with
  | makes _ hn => cases hn.symm.trans hl
  | unlinks _ he hn =>
    cases hn.symm.trans hl
    exact absurd he hr
  | _ => exact hl

theorem Kept.exclusive (h : l.Kept) : l.Exclusive where
  alone t i u j ht hl hu := by
    have hj := h.linked_of_working u j hu
    rw [hl] at hj
    cases hj
    exact h.eq_of_mutex (by rw [hu]; rfl) ht
  linked := h.linked_of_working
  reached := h.linked_of_record
  stays _ _ _ _ hs := (moves_of_step? hs).linked

/-- However many tasks come to a path and however their acts are mixed, one works at a time,
in the slot that the path leads to, which stays linked as long as there is a record. The turns
come one after another, each of them finding the record that the one before it has left, and
the path leads to the record that was written last. -/
theorem turns_of_run (hr : run? {} acts = some l) :
    l.Exclusive ∧ ∃ turn, l.HasTurn turn ∧
      InTurns ⟨none, none⟩ (notes {} acts) ⟨turn, l.record?⟩ := by
  obtain ⟨hk, hn⟩ := kept_empty.run hasTurn_empty hr
  exact ⟨hk.exclusive, hn⟩

/-- While 0 works at a path without a record, 1 waits for the same slot. 0 leaves the slot empty
and 2 comes to a new one, where it makes a record. Then 1 has the mutex of the old slot, goes
after the new one and finds the record. -/
def overtaking : List (Nat × TurnAct) :=
  [(0, .link), (0, .lock), (0, .check), (1, .link), (0, .unlink),
    (2, .link), (2, .lock), (2, .check), (0, .unlock), (1, .lock),
    (2, .write (some (.free "L"))), (1, .check), (1, .unlock), (1, .link),
    (2, .unlink), (2, .unlock), (1, .lock), (1, .check)]

theorem turns_of_overtaking :
    ∃ l, run? {} overtaking = some l ∧
      notes {} overtaking =
        [.saw 0 none, .left 0 none, .saw 2 none, .wrote 2 (some (.free "L")),
          .left 2 (some (.free "L")), .saw 1 (some (.free "L"))] ∧
      l.Exclusive ∧ ∃ turn, l.HasTurn turn ∧
        InTurns ⟨none, none⟩ (notes {} overtaking) ⟨turn, l.record?⟩ :=
  ⟨_, rfl, by decide +kernel, turns_of_run rfl⟩

end Linking

end LockCell
