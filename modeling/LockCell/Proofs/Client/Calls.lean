import LockCell.Proofs.Client.Steps

/-
  LockCell.Proofs.Client.Calls — which lock calls a client session is busy with.

  What keeps the session alive leaves the lock calls and the list of locks alone, and has no
  effect that is a lock call's (`Aside`; `aside_watchStep?`, `aside_answer`).

  A session answers the calls that were made in it and no others, and each of them once: the
  calls of a number that are pending, and those that have just been answered, are no more than
  were pending before (`tally_step?`, `tally_answer`), but for the one that a step makes
  (`tally_call`).
-/

namespace LockCell

/-- It is no lock call's. -/
def Effect.Aside : Effect → Prop
  | .send (.lock _) _ _ | .cancel (.lock _) | .finish _ _ => False
  | _ => True

/-- It is the end of the lock call of this number. -/
def Effect.ends (id : Nat) : Effect → Bool
  | .finish i _ => i = id
  | .send .. | .cancel _ => false

namespace ClientSession

/-- A step that leaves the locks and the lock calls alone. -/
structure Aside (s : ClientSession) (x : Step) : Prop where
  client : x.1.client = s.client
  held : x.1.held = s.held
  calls : x.1.calls = s.calls
  effects : ∀ e ∈ x.2, e.Aside

/-- The lock calls of this number that are pending. -/
def tally (s : ClientSession) (id : Nat) : Nat := s.calls.countP (·.id = id)

/-- The lock calls of this number that are pending after the step, or have been answered. -/
def Step.tally (x : Step) (id : Nat) : Nat := x.1.tally id + x.2.countP (Effect.ends id)

/-- The lock call of this number is pending. -/
def Plays (s : ClientSession) (id : Nat) : Prop := ∃ d ∈ s.calls, d.id = id

/-- After the step the lock call of this number is pending, or it has been answered. -/
def Step.Plays (x : Step) (id : Nat) : Prop := x.1.Plays id ∨ ∃ r, Effect.finish id r ∈ x.2

variable {s : ClientSession} {now id : Nat} {x : Step}

theorem plays_iff : s.Plays id ↔ 0 < s.tally id := by
  unfold tally
  rw [List.countP_pos_iff]
  simp [Plays]

theorem Step.plays_iff {x : Step} : x.Plays id ↔ 0 < x.tally id := by
  have he : (∃ r, Effect.finish id r ∈ x.2) ↔ 0 < x.2.countP (Effect.ends id) := by
    rw [List.countP_pos_iff]
    constructor
    · rintro ⟨r, hr⟩
      exact ⟨_, hr, decide_eq_true rfl⟩
    · rintro ⟨e, he, h⟩
      cases e with
      | finish i r =>
        obtain rfl := of_decide_eq_true h
        exact ⟨r, he⟩
      | send | cancel => cases h
  unfold Step.Plays Step.tally
  rw [ClientSession.plays_iff, he]
  omega

/-- A step that adds no call plays none that was not pending. -/
theorem of_plays (h : x.tally id ≤ s.tally id) (hp : x.Plays id) : s.Plays id :=
  plays_iff.2 (Nat.lt_of_lt_of_le (Step.plays_iff.1 hp) h)

theorem tally_pos {c : LockCall} (hc : c ∈ s.calls) : 0 < s.tally c.id := plays_iff.1 ⟨c, hc, rfl⟩

theorem tally_dropCall (s : ClientSession) (i id : Nat) :
    (s.dropCall i).tally id = if id = i then 0 else s.tally id := by
  unfold tally dropCall
  rw [List.countP_filter]
  split
  · rename_i e
    subst e
    simp
  · rename_i hne
    refine List.countP_congr fun d _ => ?_
    simp only [Bool.and_eq_true, decide_eq_true_eq, ne_eq, and_iff_left_iff_imp]
    rintro rfl
    exact hne

theorem tally_setCall (s : ClientSession) (c : LockCall) (id : Nat) :
    (s.setCall c).tally id = s.tally id := by
  unfold tally setCall
  rw [List.countP_map]
  refine List.countP_congr fun d _ => ?_
  dsimp only [Function.comp]
  split
  · rename_i e
    rw [e]
  · rfl

theorem tally_record (s : ClientSession) (op : LockOp) (r : Response) (id : Nat) :
    (s.record op r).tally id = s.tally id := by
  unfold record
  repeat' split
  all_goals rfl

/-! ## What leaves the lock calls alone -/

theorem Aside.tally_le (h : s.Aside x) (id : Nat) : x.tally id ≤ s.tally id := by
  have he : x.2.countP (Effect.ends id) = 0 := by
    refine List.countP_eq_zero.2 fun e he hid => ?_
    have ha := h.effects e he
    cases e with
    | finish => exact ha
    | send | cancel => cases hid
  unfold Step.tally tally
  rw [he, h.calls]
  exact Nat.le_refl _

theorem Aside.of {s' : ClientSession} (h : s'.Aside x) (hc : s'.client = s.client)
    (hh : s'.held = s.held) (hl : s'.calls = s.calls) : s.Aside x :=
  ⟨h.client.trans hc, h.held.trans hh, h.calls.trans hl, h.effects⟩

theorem aside_renew (s : ClientSession) (now : Nat) : s.Aside (s.renew now) := by
  unfold renew
  split
  · exact ⟨rfl, rfl, rfl, by simp [Effect.Aside]⟩
  · exact ⟨rfl, rfl, rfl, by simp⟩

theorem aside_endWatch (s : ClientSession) : s.Aside s.endWatch := by
  refine ⟨rfl, rfl, rfl, fun e he => ?_⟩
  unfold endWatch at he
  dsimp only at he
  repeat' split at he
  all_goals simp at he
  all_goals
    subst he
    trivial

theorem aside_ask (s : ClientSession) (now : Nat) (l : List Addr) : s.Aside (s.ask now l) := by
  cases l with
  | nil => exact ⟨rfl, rfl, rfl, by simp [ask]⟩
  | cons a l => exact ⟨rfl, rfl, rfl, by simp [ask, Effect.Aside]⟩

theorem aside_take (s : ClientSession) (g : Nat) (r : Except Error KeepAlive) (now : Nat) :
    s.Aside (s.take g r now) := by
  unfold take
  dsimp only
  repeat' split
  · exact aside_renew s now
  · exact (aside_endWatch _).of rfl rfl rfl
  · exact (aside_renew _ now).of rfl rfl rfl
  · exact (aside_renew _ now).of rfl rfl rfl
  · exact (aside_renew _ now).of rfl rfl rfl

theorem aside_fallInJeopardy (s : ClientSession) : s.Aside s.fallInJeopardy := by
  refine ⟨rfl, rfl, rfl, fun e he => ?_⟩
  unfold fallInJeopardy at he
  dsimp only at he
  split at he
  · cases List.mem_singleton.1 he
    trivial
  · cases he

theorem aside_watchStep? (hx : s.watchStep? now = some x) : s.Aside x := by
  cases WatchStep.of_watchStep? hx with
  | ends => exact aside_endWatch s
  | hears => exact (aside_take _ _ _ now).of rfl rfl rfl
  | falls => exact aside_fallInJeopardy s
  | renews => exact aside_renew s now
  | refused | runsOut => exact (aside_endWatch s.expire).of rfl rfl rfl
  | recovers => exact (aside_renew _ now).of rfl rfl rfl
  | asks => exact aside_ask s now _

/-- An answer to anything but a lock call. -/
theorem aside_answer {ask : Ask} (h : ∀ i, ask ≠ .lock i) (r : Except Error Response) :
    s.Aside (s.answer ask r now) := by
  cases ask with
  | keepAlive g => exact ⟨rfl, rfl, rfl, by simp [answer]⟩
  | lock i => exact absurd rfl (h i)
  | probe =>
    simp only [answer]
    unfold probeAnswer
    repeat' split
    · exact ⟨rfl, rfl, rfl, by simp⟩
    · exact aside_ask s now _
    · exact ⟨rfl, rfl, rfl, by simp⟩

/-! ## Whose calls are answered -/

theorem tally_callStep? {c : LockCall} (hc : c ∈ s.calls) (hx : s.callStep? now c = some x)
    (id : Nat) : x.tally id ≤ s.tally id := by
  have hpos : 1 ≤ s.tally c.id := tally_pos hc
  cases CallStep.of_callStep? hx with
  | returns => simp [Step.tally, tally_setCall]
  | goes => simp [Step.tally, tally_setCall, Effect.ends]
  | fails =>
    simp only [Step.tally, tally_dropCall, List.countP_singleton, Effect.ends]
    by_cases e : id = c.id
    · subst e
      simpa using hpos
    · simp [e, Ne.symm e]

theorem tally_step? (hx : s.step? now = some x) (id : Nat) : x.tally id ≤ s.tally id := by
  rcases step?_cases hx with hx | ⟨-, c, hc, hx⟩
  · exact (aside_watchStep? hx).tally_le id
  · exact tally_callStep? hc hx id

theorem tally_lockAnswer (s : ClientSession) (i : Nat) (r : Except Error Response) (now id : Nat) :
    (s.lockAnswer i r now).tally id ≤ s.tally id := by
  unfold lockAnswer
  split
  · simp [Step.tally]
  · rename_i c hfind
    obtain rfl : c.id = i := by simpa using List.find?_some hfind
    have hpos : 1 ≤ s.tally c.id := tally_pos (List.mem_of_find?_eq_some hfind)
    have ended : (s.dropCall c.id).tally id + (if c.id = id then 1 else 0) ≤ s.tally id := by
      rw [tally_dropCall]
      by_cases e : id = c.id
      · subst e
        simpa using hpos
      · simp [e, Ne.symm e]
    split
    · simpa [Step.tally, tally_record, Effect.ends, List.countP_singleton] using ended
    · split
      · simp [Step.tally, tally_setCall]
      · simpa [Step.tally, Effect.ends, List.countP_singleton] using ended

theorem tally_answer (s : ClientSession) (ask : Ask) (r : Except Error Response) (now id : Nat) :
    (s.answer ask r now).tally id ≤ s.tally id := by
  cases ask with
  | keepAlive g | probe => exact (aside_answer (by simp) r).tally_le id
  | lock i => exact tally_lockAnswer s i r now id

theorem tally_abandon (s : ClientSession) (i id : Nat) : (s.abandon i).tally id ≤ s.tally id := by
  have he : (s.abandon i).2.countP (Effect.ends id) = 0 := by
    unfold abandon
    dsimp only
    split <;> simp [Effect.ends]
  unfold Step.tally
  rw [he, show (s.abandon i).1 = s.dropCall i from rfl, tally_dropCall]
  split <;> omega

/-- A call that is made is the only one that is added. -/
theorem tally_call (s : ClientSession) (i : Nat) (op : LockOp) (id : Nat) :
    (s.call i op).tally id = s.tally id + if i = id then 1 else 0 := by
  unfold call
  split
  · simp [Step.tally, Effect.ends, List.countP_singleton]
  · simp [Step.tally, tally, List.countP_append, List.countP_singleton]

theorem of_plays_step? (hx : s.step? now = some x) (h : x.Plays id) : s.Plays id :=
  of_plays (tally_step? hx id) h

theorem of_plays_answer (ask : Ask) (r : Except Error Response)
    (h : (s.answer ask r now).Plays id) : s.Plays id :=
  of_plays (tally_answer s ask r now id) h

theorem of_plays_abandon (i : Nat) (h : (s.abandon i).Plays id) : s.Plays id :=
  of_plays (tally_abandon s i id) h

theorem plays_call {i : Nat} (op : LockOp) (h : (s.call i op).Plays id) : s.Plays id ∨ id = i := by
  have h := Step.plays_iff.1 h
  rw [tally_call] at h
  split at h
  · rename_i e
    exact Or.inr e.symm
  · exact Or.inl (plays_iff.2 h)

end ClientSession

end LockCell
