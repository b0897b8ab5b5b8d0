import LockCell.Proofs.Client.Outstanding

/-
  LockCell.Proofs.Client.Inbox — what a client session does without a look at its inbox.

  Only a session that renews its lease looks at the answers to its keep-alives. Whatever else
  happens to it does not depend on its inbox, and leaves it as it is (`Blind`): the same comes
  of the session with any other inbox (`post`).

  The watch looks at its inbox before its clock. An answer to a keep-alive of an earlier
  generation has it think of its next keep-alive, whatever the answer says (`take_of_stale`).
-/

namespace LockCell

namespace ClientSession

variable {s : ClientSession} {now : Nat} {i : List (Nat × Except Error KeepAlive)} {x : Step}

/-- The session with another inbox. -/
def post (s : ClientSession) (i : List (Nat × Except Error KeepAlive)) : ClientSession :=
  { s with inbox := i }

/-- The next keep-alive is due. -/
def Due (s : ClientSession) (now : Nat) : Prop :=
  (!s.inFlight && s.next.any (· ≤ now)) = true

instance (s : ClientSession) (now : Nat) : Decidable (s.Due now) :=
  inferInstanceAs (Decidable (_ = true))

theorem renew_of_due (h : s.Due now) : s.renew now =
    ({ s with inFlight := true, next := none },
     [.send (.keepAlive s.generation) s.server (.keepAlive s.client none)]) := if_pos h

theorem renew_of_not_due (h : ¬ s.Due now) : s.renew now = (s, []) := if_neg h

/-- What a keep-alive of an earlier generation comes to does not matter. -/
theorem take_of_stale {g : Nat} (hg : g ≠ s.generation) (r : Except Error KeepAlive) :
    s.take g r now = s.renew now := if_pos hg

/-! ## What does not depend on the inbox -/

section post

variable (s : ClientSession) (i : List (Nat × Except Error KeepAlive))

@[simp] theorem config_post : (s.post i).config = s.config := rfl
@[simp] theorem candidates_post : (s.post i).candidates = s.candidates := rfl
@[simp] theorem phase_post : (s.post i).phase = s.phase := rfl
@[simp] theorem closed_post : (s.post i).closed = s.closed := rfl
@[simp] theorem watch_post : (s.post i).watch = s.watch := rfl
@[simp] theorem probe_post : (s.post i).probe = s.probe := rfl
@[simp] theorem found_post : (s.post i).found = s.found := rfl
@[simp] theorem calls_post : (s.post i).calls = s.calls := rfl

@[simp] theorem endWatch_post : (s.post i).endWatch = (s.endWatch.1.post i, s.endWatch.2) := rfl

@[simp] theorem expire_post : (s.post i).expire = s.expire.post i := rfl

end post

@[simp] theorem post_inbox (s : ClientSession) : s.post s.inbox = s := rfl

@[simp] theorem post_post (s : ClientSession) (i j : List (Nat × Except Error KeepAlive)) :
    (s.post i).post j = s.post j := rfl

@[simp] theorem renew_post (s : ClientSession) (now : Nat)
    (i : List (Nat × Except Error KeepAlive)) :
    (s.post i).renew now = ((s.renew now).1.post i, (s.renew now).2) := by
  by_cases hd : s.Due now
  · rw [renew_of_due hd, renew_of_due (s := s.post i) hd]
    rfl
  · rw [renew_of_not_due hd, renew_of_not_due (s := s.post i) hd]

@[simp] theorem ask_post (s : ClientSession) (now : Nat) (l : List Addr)
    (i : List (Nat × Except Error KeepAlive)) :
    (s.post i).ask now l = ((s.ask now l).1.post i, (s.ask now l).2) := by
  cases l <;> rfl

@[simp] theorem recover_post (s : ClientSession) (a : Addr) (k : KeepAlive) (t now : Nat)
    (i : List (Nat × Except Error KeepAlive)) :
    (s.post i).recover a k t now = ((s.recover a k t now).1.post i, (s.recover a k t now).2) := by
  rw [recover_eq, recover_eq]
  rfl

theorem take_post (s : ClientSession) (g : Nat) (r : Except Error KeepAlive) (now : Nat)
    (i : List (Nat × Except Error KeepAlive)) :
    (s.post i).take g r now = ((s.take g r now).1.post i, (s.take g r now).2) := by
  by_cases hg : g = s.generation
  · subst hg
    cases r with
    | ok k =>
      by_cases he : k.expired = true
      · simp only [take, post, he, ne_eq, not_true_eq_false, if_false, if_true]
        rfl
      · simp only [take, post, he, ne_eq, not_true_eq_false, if_false]
        exact renew_post { s with inFlight := false, lease := k.lease, next := some now } now i
    | error e =>
      by_cases he : e.isTransient = true
      · simp only [take, post, he, ne_eq, not_true_eq_false, if_false, if_true]
        exact renew_post { s with inFlight := false, next := some (now + s.config.probe) } now i
      · simp only [take, post, he, ne_eq, not_true_eq_false, if_false]
        exact renew_post { s with inFlight := false } now i
  · rw [take_of_stale hg, take_of_stale (s := s.post i) hg]
    exact renew_post s now i

theorem searchStep?_post (s : ClientSession) (now : Nat)
    (i : List (Nat × Except Error KeepAlive)) :
    (s.post i).searchStep? now = (s.searchStep? now).map fun x => (x.1.post i, x.2) := by
  unfold searchStep?
  simp only [found_post, phase_post, probe_post, candidates_post, expire_post, endWatch_post,
    ask_post, recover_post]
  cases s.found with
  | some z =>
    obtain ⟨a, k, t⟩ := z
    dsimp only
    split <;> rfl
  | none =>
    cases s.phase with
    | active | expired => rfl
    | jeopardy d =>
      dsimp only
      split
      · rfl
      · cases s.probe with
        | idle | asking => rfl
        | resting t =>
          dsimp only
          split <;> rfl

theorem callStep?_post (s : ClientSession) (now : Nat) (c : LockCall)
    (i : List (Nat × Except Error KeepAlive)) :
    (s.post i).callStep? now c = (s.callStep? now c).map fun x => (x.1.post i, x.2) := by
  unfold callStep?
  simp only [phase_post]
  cases c.state with
  | flying => rfl
  | resting t =>
    dsimp only
    split <;> rfl
  | gate => cases s.phase <;> rfl

theorem callSteps_post (s : ClientSession) (now : Nat) (l : List LockCall)
    (i : List (Nat × Except Error KeepAlive)) :
    l.findSome? ((s.post i).callStep? now) =
      (l.findSome? (s.callStep? now)).map fun x => (x.1.post i, x.2) := by
  induction l with
  | nil => rfl
  | cons c l ih =>
    simp only [List.findSome?_cons, callStep?_post, ih]
    cases s.callStep? now c <;> rfl

/-- A session that does not renew its lease does not look at its inbox. -/
theorem step?_post (h : s.watch = .renewing → s.closed = true) (now : Nat)
    (i : List (Nat × Except Error KeepAlive)) :
    (s.post i).step? now = (s.step? now).map fun x => (x.1.post i, x.2) := by
  have hw : (s.post i).watchStep? now = (s.watchStep? now).map fun x => (x.1.post i, x.2) := by
    unfold watchStep?
    simp only [watch_post, closed_post, endWatch_post, searchStep?_post]
    match hs : s.watch with
    | .over => rfl
    | .renewing =>
      simp only [h hs, if_true]
      rfl
    | .searching =>
      dsimp only
      split <;> rfl
  unfold step?
  rw [hw]
  cases s.watchStep? now with
  | none => exact callSteps_post s now s.calls i
  | some x => rfl

/-- Nor is it looked at when an answer comes, unless that is to a plain keep-alive. -/
theorem answer_post (s : ClientSession) {ask : Ask} (h : ask.plain = false)
    (r : Except Error Response) (now : Nat) (i : List (Nat × Except Error KeepAlive)) :
    (s.post i).answer ask r now = ((s.answer ask r now).1.post i, (s.answer ask r now).2) := by
  cases ask with
  | keepAlive k => cases h
  | probe =>
    show (s.post i).probeAnswer (keptOf r) now = ((s.probeAnswer (keptOf r) now).1.post i, _)
    simp only [answer, probeAnswer, probe_post, ask_post]
    cases s.probe with
    | idle | resting => rfl
    | asking a t rest => cases keptOf r <;> rfl
  | lock id =>
    show (s.post i).lockAnswer id r now = ((s.lockAnswer id r now).1.post i, _)
    simp only [answer, lockAnswer, calls_post, config_post]
    cases s.calls.find? (·.id = id) with
    | none => rfl
    | some c =>
      cases r with
      | ok y =>
        dsimp only
        unfold record
        split <;> rfl
      | error e =>
        dsimp only
        split <;> rfl

theorem step?_of_closed (hw : s.watch = .renewing) (hc : s.closed = true) :
    s.step? now = some s.endWatch := by
  simp [step?, watchStep?, hw, hc]

/-- An answer in the inbox comes first. -/
theorem step?_of_inbox (hw : s.watch = .renewing) (hc : s.closed = false) {g : Nat}
    {r : Except Error KeepAlive} {rest : List (Nat × Except Error KeepAlive)}
    (hi : s.inbox = (g, r) :: rest) : s.step? now = some ((s.post rest).take g r now) := by
  simp [step?, watchStep?, renewStep?, hw, hc, hi, post]

/-- A keep-alive goes out that is due, unless the lease has run out. -/
theorem step?_of_due (hw : s.watch = .renewing) (hc : s.closed = false) (hi : s.inbox = [])
    (hl : now < s.deadline) (hd : s.Due now) : s.step? now = some (s.renew now) := by
  have hr : s.renewStep? now = some (s.renew now) := by
    simp only [renewStep?, hi, if_neg (Nat.not_le.2 hl)]
    exact if_pos hd
  simp [step?, watchStep?, hw, hc, hr]

/-- While a keep-alive is due none of its generation has been answered. -/
theorem Lone.filter_of_due {out : List Sent} (h : s.Lone out) (hw : s.watch ≠ .over)
    (hd : s.Due now) : s.inbox.filter (·.1 = s.generation) = [] := by
  have hf : s.inFlight = false := by
    unfold Due at hd
    cases hf : s.inFlight with
    | false => rfl
    | true => simp [hf] at hd
  have hc := h.count hw
  rw [hf, if_neg Bool.false_ne_true, renewals] at hc
  refine List.filter_eq_nil_iff.2 (List.countP_eq_zero.1 ?_)
  omega

/-- Nothing but an answer comes into the inbox. -/
theorem Fares.inbox (h : s.Fares now .goOn x) : ∀ z ∈ x.1.inbox, z ∈ s.inbox := by
  cases h with
  | aside hi | extended _ hi | refused _ hi => exact hi
  | falls | runsOut | ends => exact fun _ hz => hz
  | asks l => cases l <;> exact fun _ hz => hz
  | recovers =>
    rw [recover_eq]
    exact fun _ hz => hz

theorem renew_frame (s : ClientSession) (now : Nat) : (s.renew now).1.watch = s.watch ∧
    (s.renew now).1.phase = s.phase ∧ (s.renew now).1.generation = s.generation := by
  by_cases hd : s.Due now
  · rw [renew_of_due hd]
    exact ⟨rfl, rfl, rfl⟩
  · rw [renew_of_not_due hd]
    exact ⟨rfl, rfl, rfl⟩

/-- A look at an answer may end the watch, but it begins no search and no generation. -/
theorem take_cases (s : ClientSession) (g : Nat) (r : Except Error KeepAlive) (now : Nat) :
    ((s.take g r now).1.watch = s.watch ∧ (s.take g r now).1.phase = s.phase ∧
        (s.take g r now).1.generation = s.generation) ∨
      ((s.take g r now).1.watch = .over ∧ (s.take g r now).1.phase = .expired) := by
  unfold take
  split
  · exact Or.inl (renew_frame s now)
  · cases r with
    | ok k =>
      dsimp only
      split
      · exact Or.inr ⟨rfl, rfl⟩
      · exact Or.inl (renew_frame _ now)
    | error e =>
      dsimp only
      split <;> exact Or.inl (renew_frame _ now)

/-- Only by itself does a session change its watch or its generation. -/
theorem watch_made? {e : Career.Event} (he : e ≠ .goOn) (hx : e.made? s now = some x) :
    x.1.watch = s.watch ∧ x.1.generation = s.generation := by
  cases e with
  | goOn => exact absurd rfl he
  | answer z r =>
    obtain ⟨t, ask, a, q⟩ := z
    cases hx
    cases ask with
    | keepAlive k => exact ⟨rfl, rfl⟩
    | probe =>
      simp only [answer, probeAnswer]
      split
      · split
        · exact ⟨rfl, rfl⟩
        · rename_i rest _ _ _ _
          cases rest <;> exact ⟨rfl, rfl⟩
      · exact ⟨rfl, rfl⟩
    | lock id =>
      simp only [answer, lockAnswer, record]
      repeat' split
      all_goals exact ⟨rfl, rfl⟩
  | call id op =>
    cases hx
    unfold call
    split <;> exact ⟨rfl, rfl⟩
  | abandon id | close =>
    cases hx
    exact ⟨rfl, rfl⟩
  | pass => cases hx

/-- The session does not look at its inbox when this comes, and nothing is put there. -/
structure Blind (s : ClientSession) (e : Career.Event) : Prop where
  idle : e = .goOn → s.watch = .renewing → s.closed = true
  other : ∀ z r, e = .answer z r → z.2.1.plain = false

/-- What it has to do with the inbox if it has. -/
theorem blind_or (s : ClientSession) (e : Career.Event) :
    s.Blind e ∨ (e = .goOn ∧ s.watch = .renewing ∧ s.closed = false) ∨
      ∃ z r, e = .answer z r ∧ z.2.1.plain = true := by
  cases e with
  | goOn =>
    by_cases hw : s.watch = .renewing ∧ s.closed = false
    · exact Or.inr (Or.inl ⟨rfl, hw⟩)
    · refine Or.inl ⟨fun _ hr => by simpa [hr] using hw, fun _ _ he => ?_⟩
      cases he
  | answer z r =>
    cases hp : z.2.1.plain with
    | false =>
      refine Or.inl ⟨fun he => ?_, fun z' r' he => ?_⟩ <;> cases he
      exact hp
    | true => exact Or.inr (Or.inr ⟨z, r, rfl, hp⟩)
  | call | abandon | close | pass =>
    refine Or.inl ⟨fun he => ?_, fun _ _ he => ?_⟩ <;> cases he

theorem made?_post {e : Career.Event} (h : s.Blind e) (i : List (Nat × Except Error KeepAlive))
    (hx : e.made? s now = some x) : e.made? (s.post i) now = some (x.1.post i, x.2) := by
  cases e with
  | goOn =>
    replace hx : s.step? now = some x := hx
    show (s.post i).step? now = _
    rw [step?_post (h.idle rfl), hx]
    rfl
  | answer z r =>
    cases hx
    exact congrArg some (answer_post s (h.other z r rfl) r now i)
  | call id op =>
    cases hx
    have hr : (s.post i).refusal? op = s.refusal? op := by cases op <;> rfl
    simp only [Career.Event.made?, call, hr]
    split <;> rfl
  | abandon id | close =>
    cases hx
    rfl
  | pass => cases hx

theorem inbox_made? {e : Career.Event} (h : s.Blind e) (hx : e.made? s now = some x) :
    x.1.inbox = s.inbox := by
  -- with its own inbox the session is itself
  have hself := made?_post h s.inbox hx
  rw [post_inbox, hx] at hself
  rw [congrArg Prod.fst (Option.some.inj hself)]
  rfl

/-- Without a look at the inbox the watch can only end, or come to the end of its search. -/
theorem watch_of_blind {e : Career.Event} (h : s.Blind e) (hx : e.made? s now = some x) :
    (x.1.watch = s.watch ∧ x.1.generation = s.generation) ∨ x.1.watch = .over ∨
      (s.watch = .searching ∧ x.1.generation = s.generation + 1) := by
  by_cases he : e = .goOn
  · subst he
    replace hx : s.step? now = some x := hx
    by_cases hw : s.watch = .renewing
    · rw [step?_of_closed hw (h.idle rfl hw)] at hx
      cases hx
      exact Or.inr (Or.inl rfl)
    · cases awaits_step? hx with
      | goesOn hw hg => exact Or.inl ⟨hw, hg⟩
      | stops ho hn hg =>
        match hy : x.1.watch, hs : s.watch with
        | .over, _ => exact Or.inr (Or.inl rfl)
        | .searching, .searching => exact Or.inl ⟨rfl, hg⟩
        | .searching, .renewing => exact absurd hs hw
        | .searching, .over => exact absurd hs ho
        | .renewing, _ => exact absurd hy hn
      | recovers hs =>
        refine Or.inr (Or.inr ⟨hs, ?_⟩)
        rw [recover_eq]
  · exact Or.inl (watch_made? he hx)

end ClientSession

end LockCell
