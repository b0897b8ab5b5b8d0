import LockCell.Proofs.Client.Resends

/-
  LockCell.Proofs.Client.Attempts — the story of a lock call.

  `Treats` lists all that a step can make of the lock calls of one number. Told from outside
  (`story`), a call is made, sent, answered, and ended, and `Tries` says in which order: it is
  sent while no attempt is out, again only after the peer hung up on it and a pause after
  that, and it ends with its answer or with the session. Where a call stands is seen from its
  state and from what is out (`Stands`); every step goes on with its story
  (`Stands.step`), so that of every run is in order (`Stands.run`).
-/

namespace LockCell

/-- It has to do with the lock call of this number. -/
def Effect.Touches (id : Nat) : Effect → Prop
  | .send (.lock i) _ _ | .cancel (.lock i) | .finish i _ => i = id
  | _ => False

namespace ClientSession

variable {s : ClientSession} {now id : Nat} {x : Step}

/-- The pending lock calls of this number. -/
def called (s : ClientSession) (id : Nat) : List LockCall := s.calls.filter (·.id = id)

theorem called_dropCall (s : ClientSession) (i id : Nat) :
    (s.dropCall i).called id = if i = id then [] else s.called id := by
  unfold called dropCall
  rw [List.filter_filter]
  split
  · rename_i e
    subst e
    simp
  · rename_i hne
    refine List.filter_congr fun c _ => ?_
    simp only [ne_eq, Bool.and_eq_left_iff_imp, decide_eq_true_eq]
    rintro rfl
    exact Ne.symm hne

theorem called_setCall (s : ClientSession) (c : LockCall) (id : Nat) :
    (s.setCall c).called id =
      if c.id = id then (s.called id).map (fun _ => c) else s.called id := by
  unfold called setCall
  dsimp only
  induction s.calls with
  | nil => simp
  | cons d l ih => grind

theorem called_record (s : ClientSession) (op : LockOp) (r : Response) (id : Nat) :
    (s.record op r).called id = s.called id := by
  unfold record
  repeat' split
  all_goals rfl

theorem mem_called {c : LockCall} : c ∈ s.called id ↔ c ∈ s.calls ∧ c.id = id := by
  simp [called]

theorem called_setState {c : LockCall} (hc : s.called id = [c]) (st : CallState) :
    (s.setCall { c with state := st }).called id = [{ c with state := st }] := by
  have hid : c.id = id := (mem_called.1 (hc ▸ List.mem_singleton_self c)).2
  rw [called_setCall, if_pos hid, hc, List.map_singleton]

/-- All that a step can make of the lock calls of the number `id`. -/
inductive Treats (s : ClientSession) (now id : Nat) : Career.Event → Step → Prop
  /-- It has nothing to do with them. -/
  | leaves {e : Career.Event} {x : Step} : x.1.called id = s.called id →
      (∀ f ∈ x.2, ¬ f.Touches id) → (∀ op, e ≠ .call id op) → e ≠ .abandon id →
      (∀ z r, e = .answer z r → z.2.1 ≠ .lock id) → Treats s now id e x
  | made (op : LockOp) : s.refusal? op = none →
      Treats s now id (.call id op) ({ s with calls := s.calls ++ [⟨id, op, .gate⟩] }, [])
  /-- The client knows better. -/
  | refused (op : LockOp) (e : LockError) : s.refusal? op = some e →
      Treats s now id (.call id op) (s, [.finish id (.error (.lock e))])
  /-- The pause is over. -/
  | returns {c : LockCall} {t : Nat} : c ∈ s.called id → c.state = .resting t → t ≤ now →
      Treats s now id .goOn (s.setCall { c with state := .gate }, [])
  | goes {c : LockCall} : c ∈ s.called id → c.state = .gate → s.watchStep? now = none →
      s.phase = .active →
      Treats s now id .goOn (s.setCall { c with state := .flying },
        [.send (.lock id) s.server (c.op.request s.client)])
  | fails {c : LockCall} : c ∈ s.called id → c.state = .gate → s.watchStep? now = none →
      s.phase = .expired →
      Treats s now id .goOn (s.dropCall id, [.finish id (.error (.sessionExpired s.client))])
  /-- The peer hung up; the call will be sent again. -/
  | hungUp {z : Nat × Sent} {a : Addr} {c : LockCall} : z.2.1 = .lock id →
      c ∈ s.called id →
      Treats s now id (.answer z (.error (.connectionClosed a)))
        (s.setCall { c with state := .resting (now + s.config.probe) }, [])
  | answered {z : Nat × Sent} {r : Except Error Response} {x : Step} : z.2.1 = .lock id →
      (∀ a, r ≠ .error (.connectionClosed a)) → x.1.called id = [] → x.2 = [.finish id r] →
      Treats s now id (.answer z r) x
  /-- The call is over. -/
  | late {z : Nat × Sent} {r : Except Error Response} : z.2.1 = .lock id → s.called id = [] →
      Treats s now id (.answer z r) (s, [])
  | abandoned : Treats s now id (.abandon id) (s.abandon id)

theorem Aside.not_touches (h : s.Aside x) (id : Nat) : ∀ f ∈ x.2, ¬ f.Touches id := by
  intro f hf ht
  have ha := h.effects f hf
  cases f with
  | send ask | cancel ask =>
    cases ask with
    | lock i => exact ha
    | keepAlive | probe => exact ht
  | finish => exact ha

theorem Aside.treats (h : s.Aside x) {e : Career.Event} (hc : ∀ op, e ≠ .call id op)
    (ha : e ≠ .abandon id) (hz : ∀ z r, e = .answer z r → z.2.1 ≠ .lock id) : s.Treats now id e x :=
  .leaves (by rw [called, called, h.calls]) (h.not_touches id) hc ha hz

theorem treats_callStep? {c : LockCall} (hc : c ∈ s.calls) (hw : s.watchStep? now = none)
    (hx : s.callStep? now c = some x) : s.Treats now id .goOn x := by
  by_cases hid : c.id = id
  · subst hid
    have hmem : c ∈ s.called c.id := mem_called.2 ⟨hc, rfl⟩
    cases CallStep.of_callStep? hx with
    | returns hs ht => exact .returns hmem hs ht
    | goes hs hp => exact .goes hmem hs hw hp
    | fails hs hp => exact .fails hmem hs hw hp
  · have left : ∀ y : Step, y.1.called id = s.called id → (∀ f ∈ y.2, ¬ f.Touches id) →
        s.Treats now id .goOn y := fun y hy hf =>
      .leaves hy hf (fun _ he => nomatch he) (fun he => nomatch he) fun _ _ he => nomatch he
    cases CallStep.of_callStep? hx with
    | returns => exact left _ (by rw [called_setCall, if_neg hid]) (by simp)
    | goes =>
      exact left _ (by rw [called_setCall, if_neg hid]) (by simpa [Effect.Touches] using hid)
    | fails =>
      exact left _ (by rw [called_dropCall, if_neg hid]) (by simpa [Effect.Touches] using hid)

theorem treats_step? (hx : s.step? now = some x) (id : Nat) : s.Treats now id .goOn x := by
  rcases step?_cases hx with hx | ⟨hw, c, hc, hx⟩
  · exact (aside_watchStep? hx).treats (fun _ he => nomatch he) (fun he => nomatch he)
      fun _ _ he => nomatch he
  · exact treats_callStep? hc hw hx

theorem treats_lockAnswer (s : ClientSession) (now id : Nat) {z : Nat × Sent} {i : Nat}
    (hz : z.2.1 = .lock i) (r : Except Error Response) :
    s.Treats now id (.answer z r) (s.lockAnswer i r now) := by
  by_cases hid : i = id
  · subst hid
    unfold lockAnswer
    split
    · rename_i hf
      refine .late hz (List.filter_eq_nil_iff.2 fun c hc hi => ?_)
      exact List.find?_eq_none.1 hf c hc hi
    · rename_i c hf
      have hmem : c ∈ s.called i :=
        mem_called.2 ⟨List.mem_of_find?_eq_some hf, by simpa using List.find?_some hf⟩
      have dropped : (s.dropCall i).called i = [] := by rw [called_dropCall, if_pos rfl]
      cases r with
      | ok a => exact .answered hz nofun (by rw [called_record, dropped]) rfl
      | error e =>
        cases e with
        | connectionClosed a => exact .hungUp hz hmem
        | _ => exact .answered hz nofun dropped rfl
  · refine .leaves ?_ ?_ (fun _ he => nomatch he) (fun he => nomatch he) fun w r' he => ?_
    · unfold lockAnswer
      repeat' split
      · rfl
      · rw [called_record, called_dropCall, if_neg hid]
      · rename_i hf _ _ _
        rw [called_setCall, if_neg]
        simpa using fun e => hid ((by simpa using List.find?_some hf : _ = i) ▸ e)
      · rw [called_dropCall, if_neg hid]
    · unfold lockAnswer
      repeat' split
      all_goals simp [Effect.Touches, hid]
    · cases he
      rw [hz]
      simpa using hid

theorem treats_made? {e : Career.Event} (hx : e.made? s now = some x) (id : Nat) :
    s.Treats now id e x := by
  cases e with
  | goOn => exact treats_step? hx id
  | answer z r =>
    cases hx
    obtain ⟨t, ask, a, q⟩ := z
    cases ask with
    | lock i => exact treats_lockAnswer s now id rfl r
    | keepAlive | probe =>
      refine (aside_answer (by simp) r).treats (fun _ he => nomatch he) (fun he => nomatch he)
        fun z' r' he => ?_
      cases he
      simp
  | call i op =>
    cases hx
    by_cases hid : i = id
    · subst hid
      unfold call
      split
      · exact .refused op _ ‹_›
      · exact .made op ‹_›
    · refine .leaves ?_ ?_ (by simp [hid]) (fun he => nomatch he) fun _ _ he => nomatch he
      · unfold call
        split
        · rfl
        · simp [called, hid]
      · unfold call
        split <;> simp [Effect.Touches, hid]
  | abandon i =>
    cases hx
    by_cases hid : i = id
    · subst hid
      exact .abandoned
    · refine .leaves ?_ ?_ (fun _ he => nomatch he) (by simp [hid]) fun _ _ he => nomatch he
      · exact (called_dropCall s i id).trans (if_neg hid)
      · unfold abandon
        dsimp only
        split <;> simp [Effect.Touches, hid]
  | close =>
    cases hx
    exact .leaves rfl (List.forall_mem_nil _) (fun _ he => nomatch he) (fun he => nomatch he)
      fun _ _ he => nomatch he
  | pass => cases hx

end ClientSession

/-! ## The story of a call -/

/-- What there is to say of a lock call, and when it was. -/
inductive Try where
  | made
  | sent (t : Nat) (addr : Addr)
  /-- This has been answered to the attempt that was out. -/
  | heard (t : Nat) (r : Except Error Response)
  /-- This is what the caller is told. -/
  | ended (t : Nat) (r : Except Error Response)
  | abandoned
  deriving DecidableEq

def Effect.tell? (id now : Nat) : Effect → Option Try
  | .send (.lock i) a _ => if i = id then some (.sent now a) else none
  | .finish i r => if i = id then some (.ended now r) else none
  | _ => none

def Career.Event.tries (id now : Nat) : Career.Event → List Try
  | .answer (_, .lock i, _, _) r => if i = id then [.heard now r] else []
  | .call i _ => if i = id then [.made] else []
  | .abandon i => if i = id then [.abandoned] else []
  | _ => []

@[simp] theorem tries_call (id now : Nat) (op : LockOp) :
    Career.Event.tries id now (.call id op) = [.made] := if_pos rfl

@[simp] theorem tries_abandon (id now : Nat) :
    Career.Event.tries id now (.abandon id) = [.abandoned] := if_pos rfl

theorem tries_answer {id : Nat} {z : Nat × Sent} (hz : z.2.1 = .lock id) (now : Nat)
    (r : Except Error Response) : Career.Event.tries id now (.answer z r) = [.heard now r] := by
  obtain ⟨t, ask, a, q⟩ := z
  obtain rfl : ask = .lock id := hz
  exact if_pos rfl

theorem tries_eq_nil {id now : Nat} {e : Career.Event} (hcall : ∀ op, e ≠ .call id op)
    (hab : e ≠ .abandon id) (hz : ∀ z r, e = .answer z r → z.2.1 ≠ .lock id) :
    e.tries id now = [] := by
  cases e with
  | answer z r =>
    obtain ⟨t, ask, a, q⟩ := z
    cases ask with
    | lock i => exact if_neg fun hi => hz _ r rfl (congrArg Ask.lock hi)
    | keepAlive | probe => rfl
  | call i op => exact if_neg fun hi => hcall op (by rw [hi])
  | abandon i => exact if_neg fun hi => hab (by rw [hi])
  | goOn | close | pass => rfl

@[simp] theorem tell?_finish (id now : Nat) (r : Except Error Response) :
    [Effect.finish id r].filterMap (Effect.tell? id now) = [.ended now r] := by
  simp [Effect.tell?]

@[simp] theorem tell?_send (id now : Nat) (a : Addr) (q : Request) :
    [Effect.send (.lock id) a q].filterMap (Effect.tell? id now) = [.sent now a] := by
  simp [Effect.tell?]

/-- Where a call stands. -/
inductive CallStage where
  /-- It may be sent, but not before this instant. -/
  | waits (t : Nat)
  /-- An attempt is out. -/
  | awaits
  /-- It has not been made, or it is over. -/
  | absent

/-- These are the pending calls of a number that stands there, with so many attempts out. -/
def CallStage.Fits (calls : List LockCall) (attempts now : Nat) : CallStage → Prop
  | .waits t => attempts = 0 ∧ ∃ c, calls = [c] ∧
      (c.state = .gate ∧ t ≤ now ∨ c.state = .resting t)
  | .awaits => attempts = 1 ∧ ∃ c, calls = [c] ∧ c.state = .flying
  | .absent => attempts = 0 ∧ calls = []

namespace CallStage

variable {stage : CallStage} {calls : List LockCall} {n now t : Nat} {c : LockCall}

theorem Fits.eq_singleton (h : stage.Fits calls n now) (hc : c ∈ calls) : calls = [c] := by
  cases stage with
  | absent =>
    rw [h.2] at hc
    cases hc
  | awaits | waits =>
    obtain ⟨-, d, rfl, -⟩ := h
    rw [List.mem_singleton.1 hc]

theorem Fits.gate (h : stage.Fits calls n now) (hc : c ∈ calls) (hs : c.state = .gate) :
    calls = [c] ∧ n = 0 ∧ ∃ w, w ≤ now ∧ stage = .waits w := by
  obtain rfl := h.eq_singleton hc
  cases stage with
  | absent => cases h.2
  | awaits =>
    obtain ⟨-, d, ⟨⟩, hd⟩ := h
    cases hs.symm.trans hd
  | waits w =>
    obtain ⟨hn, d, ⟨⟩, hd⟩ := h
    rcases hd with ⟨-, hle⟩ | hd
    · exact ⟨rfl, hn, w, hle, rfl⟩
    · cases hs.symm.trans hd

theorem Fits.resting (h : stage.Fits calls n now) (hc : c ∈ calls) (hs : c.state = .resting t) :
    calls = [c] ∧ n = 0 ∧ stage = .waits t := by
  obtain rfl := h.eq_singleton hc
  cases stage with
  | absent => cases h.2
  | awaits =>
    obtain ⟨-, d, ⟨⟩, hd⟩ := h
    cases hs.symm.trans hd
  | waits w =>
    obtain ⟨hn, d, ⟨⟩, hd⟩ := h
    rcases hd with ⟨hd, -⟩ | hd
    · cases hs.symm.trans hd
    · cases hs.symm.trans hd
      exact ⟨rfl, hn, rfl⟩

theorem Fits.le_one (h : stage.Fits calls n now) : n ≤ 1 := by
  cases stage with
  | absent | waits => exact Nat.le_succ_of_le (Nat.le_of_eq h.1)
  | awaits => exact Nat.le_of_eq h.1

theorem Fits.out (h : stage.Fits calls (n + 1) now) :
    n = 0 ∧ stage = .awaits ∧ ∃ c, calls = [c] ∧ c.state = .flying := by
  cases stage with
  | absent | waits => cases h.1
  | awaits => exact ⟨Nat.succ.inj h.1, rfl, h.2⟩

end CallStage

/-- The order in which things happen to the calls of a number, from one stage to another. -/
inductive Tries (pause : Nat) (c : Client) : CallStage → List Try → CallStage → Prop
  | stays {st : CallStage} : Tries pause c st [] st
  | made {l st} : Tries pause c (.waits 0) l st → Tries pause c .absent (.made :: l) st
  /-- The client knew better. -/
  | refused {t e l st} : Tries pause c .absent l st →
      Tries pause c .absent (.made :: .ended t (.error (.lock e)) :: l) st
  | sent {w t a l st} : w ≤ t → Tries pause c .awaits l st →
      Tries pause c (.waits w) (.sent t a :: l) st
  | hungUp {t a l st} : Tries pause c (.waits (t + pause)) l st →
      Tries pause c .awaits (.heard t (.error (.connectionClosed a)) :: l) st
  | answered {t r l st} : (∀ a, r ≠ .error (.connectionClosed a)) → Tries pause c .absent l st →
      Tries pause c .awaits (.heard t r :: .ended t r :: l) st
  | expired {w t l st} : w ≤ t → Tries pause c .absent l st →
      Tries pause c (.waits w) (.ended t (.error (.sessionExpired c)) :: l) st
  | abandoned {st₀ l st} : Tries pause c .absent l st → Tries pause c st₀ (.abandoned :: l) st

theorem Tries.append {pause : Nat} {c : Client} {st₀ st₁ st₂ : CallStage} {l m : List Try}
    (h : Tries pause c st₀ l st₁) (hm : Tries pause c st₁ m st₂) :
    Tries pause c st₀ (l ++ m) st₂ := by
  induction h with
  | stays => exact hm
  | made _ ih => exact .made (ih hm)
  | refused _ ih => exact .refused (ih hm)
  | sent hle _ ih => exact .sent hle (ih hm)
  | hungUp _ ih => exact .hungUp (ih hm)
  | answered hr _ ih => exact .answered hr (ih hm)
  | expired hle _ ih => exact .expired hle (ih hm)
  | abandoned _ ih => exact .abandoned (ih hm)

namespace ClientSession

variable {s : ClientSession} {now id : Nat} {e : Career.Event} {x : Step} {stage : CallStage}

/-- What has nothing to do with a call takes nothing that is out for it from it, sends nothing
for it and ends nothing. -/
theorem of_not_touches {l : List Effect} (h : ∀ f ∈ l, ¬ f.Touches id) (now : Nat) :
    .lock id ∉ cancelsOf l ∧ (sentOf l).countP (·.1 = .lock id) = 0 ∧
      l.filterMap (Effect.tell? id now) = [] := by
  refine ⟨fun hc => ?_, List.countP_eq_zero.2 fun z hz hid => ?_, ?_⟩
  · obtain ⟨f, hf, hfa⟩ := List.mem_filterMap.1 hc
    cases f with
    | cancel ask =>
      cases hfa
      exact h _ hf rfl
    | send | finish => cases hfa
  · obtain ⟨f, hf, hfz⟩ := List.mem_filterMap.1 hz
    cases f with
    | send ask a q =>
      cases hfz
      obtain rfl : ask = .lock id := of_decide_eq_true hid
      exact h _ hf rfl
    | cancel | finish => cases hfz
  · refine List.filterMap_eq_nil_iff.2 fun f hf => ?_
    have hn := h f hf
    cases f with
    | send ask a q =>
      cases ask with
      | lock i => exact if_neg hn
      | keepAlive | probe => rfl
    | cancel => rfl
    | finish i r => exact if_neg hn

/-- A call that is abandoned is not awaited any more. -/
theorem out_abandon (s : ClientSession) (id : Nat) :
    (∀ c ∈ s.called id, c.state = .flying → .lock id ∈ cancelsOf (s.abandon id).2) ∧
      sentOf (s.abandon id).2 = [] ∧
      ∀ now, (s.abandon id).2.filterMap (Effect.tell? id now) = [] := by
  unfold abandon
  dsimp only
  refine ⟨fun c hc hf => ?_, ?_, fun now => ?_⟩
  · obtain ⟨hc, hid⟩ := mem_called.1 hc
    rw [if_pos (List.any_eq_true.2 ⟨c, hc, by simp [hid, hf]⟩)]
    simp [cancelsOf]
  · split <;> rfl
  · split <;> rfl

/-- From its stage the story of a call goes on with the step `x` at `e`, when `m` attempts are
out. A number of which no call is made stays without a story. -/
def GoesOn (s : ClientSession) (now id m : Nat) (stage : CallStage) (e : Career.Event)
    (x : Step) : Prop :=
  ∃ stage', stage'.Fits (x.1.called id) ((if .lock id ∈ cancelsOf x.2 then 0 else m) +
      (sentOf x.2).countP (·.1 = .lock id)) now ∧
    Tries s.config.probe s.client stage
      (e.tries id now ++ x.2.filterMap (Effect.tell? id now)) stage' ∧
    (stage = .absent → (∀ op, e ≠ .call id op) → stage' = .absent)

section

variable {n m t : Nat} {c : LockCall}

theorem goesOn_of_leaves (h : stage.Fits (s.called id) n now) (hc : x.1.called id = s.called id)
    (hf : ∀ f ∈ x.2, ¬ f.Touches id) (hcall : ∀ op, e ≠ .call id op) (hab : e ≠ .abandon id)
    (hz : ∀ z r, e = .answer z r → z.2.1 ≠ .lock id) : s.GoesOn now id n stage e x := by
  obtain ⟨hcan, hsent, htry⟩ := of_not_touches hf now
  unfold GoesOn
  rw [tries_eq_nil hcall hab hz, htry, if_neg hcan, hsent, hc]
  exact ⟨stage, h, .stays, fun ho _ => ho⟩

theorem goesOn_made (h : CallStage.absent.Fits (s.called id) n now) (op : LockOp) :
    s.GoesOn now id n .absent (.call id op)
      ({ s with calls := s.calls ++ [⟨id, op, .gate⟩] }, []) := by
  refine ⟨.waits 0, ⟨h.1, ⟨id, op, .gate⟩, ?_, .inl ⟨rfl, Nat.zero_le _⟩⟩, ?_, ?_⟩
  · simpa [called] using h.2
  · rw [tries_call]
    exact .made .stays
  · exact fun _ hne => absurd rfl (hne op)

theorem goesOn_refused (h : CallStage.absent.Fits (s.called id) n now) (op : LockOp)
    (e : LockError) :
    s.GoesOn now id n .absent (.call id op) (s, [.finish id (.error (.lock e))]) := by
  refine ⟨.absent, h, ?_, fun _ _ => rfl⟩
  rw [tries_call, tell?_finish]
  exact .refused .stays

theorem goesOn_returns (h : stage.Fits (s.called id) n now) (hc : c ∈ s.called id)
    (hst : c.state = .resting t) (hle : t ≤ now) :
    s.GoesOn now id n stage .goOn (s.setCall { c with state := .gate }, []) := by
  obtain ⟨hcs, hn, rfl⟩ := h.resting hc hst
  refine ⟨.waits t, ⟨hn, { c with state := .gate }, ?_, .inl ⟨rfl, hle⟩⟩, .stays,
    fun he => nomatch he⟩
  exact called_setState hcs .gate

theorem goesOn_goes (h : stage.Fits (s.called id) n now) (hc : c ∈ s.called id)
    (hst : c.state = .gate) :
    s.GoesOn now id n stage .goOn (s.setCall { c with state := .flying },
      [.send (.lock id) s.server (c.op.request s.client)]) := by
  obtain ⟨hcs, rfl, w, hle, rfl⟩ := h.gate hc hst
  refine ⟨.awaits, ⟨?_, { c with state := .flying }, ?_, rfl⟩, ?_, fun he => nomatch he⟩
  · simp [cancelsOf]
  · exact called_setState hcs .flying
  · rw [tell?_send]
    exact .sent hle .stays

theorem goesOn_fails (h : stage.Fits (s.called id) n now) (hc : c ∈ s.called id)
    (hst : c.state = .gate) :
    s.GoesOn now id n stage .goOn
      (s.dropCall id, [.finish id (.error (.sessionExpired s.client))]) := by
  obtain ⟨-, hn, w, hle, rfl⟩ := h.gate hc hst
  refine ⟨.absent, ⟨hn, ?_⟩, ?_, fun he => nomatch he⟩
  · rw [called_dropCall, if_pos rfl]
  · rw [tell?_finish]
    exact .expired hle .stays

/-- The peer hung up on the only attempt that was out. -/
theorem goesOn_hungUp {z : Nat × Sent} {a : Addr} (h : stage.Fits (s.called id) (m + 1) now)
    (hz : z.2.1 = .lock id) (hc : c ∈ s.called id) :
    s.GoesOn now id m stage (.answer z (.error (.connectionClosed a)))
      (s.setCall { c with state := .resting (now + s.config.probe) }, []) := by
  have hcs := h.eq_singleton hc
  obtain ⟨hm, rfl, -⟩ := h.out
  refine ⟨.waits (now + s.config.probe),
    ⟨hm, { c with state := .resting (now + s.config.probe) }, ?_, .inr rfl⟩, ?_,
    fun he => nomatch he⟩
  · exact called_setState hcs _
  · rw [tries_answer hz]
    exact .hungUp .stays

theorem goesOn_answered {z : Nat × Sent} {r : Except Error Response}
    (h : stage.Fits (s.called id) (m + 1) now) (hz : z.2.1 = .lock id)
    (hr : ∀ a, r ≠ .error (.connectionClosed a)) (hc : x.1.called id = [])
    (hf : x.2 = [.finish id r]) : s.GoesOn now id m stage (.answer z r) x := by
  obtain ⟨hm, rfl, -⟩ := h.out
  refine ⟨.absent, ⟨?_, hc⟩, ?_, fun he => nomatch he⟩
  · rw [hf]
    exact hm
  · rw [tries_answer hz, hf, tell?_finish]
    exact .answered hr .stays

theorem goesOn_abandoned (h : stage.Fits (s.called id) n now) :
    s.GoesOn now id n stage (.abandon id) (s.abandon id) := by
  obtain ⟨hcan, hsent, htell⟩ := out_abandon s id
  refine ⟨.absent, ⟨?_, ?_⟩, ?_, fun _ _ => rfl⟩
  · rw [hsent, List.countP_nil, Nat.add_zero]
    split
    · rfl
    · rename_i hno
      -- an attempt that is out is given up
      cases stage with
      | absent | waits => exact h.1
      | awaits =>
        obtain ⟨-, c, hcs, hf⟩ := h
        exact absurd (hcan c (hcs ▸ List.mem_singleton_self c) hf) hno
  · exact (called_dropCall s id id).trans (if_pos rfl)
  · rw [tries_abandon, htell]
    exact .abandoned .stays

/-- A step goes on with the story of a call; `n` attempts were out before it, and `m` are after
an answer has been taken from them. -/
theorem Treats.goesOn (ht : s.Treats now id e x)
    (h : stage.Fits (s.called id) n now) (hnew : ∀ op, e = .call id op → stage = .absent)
    (hsame : (∀ z r, e = .answer z r → z.2.1 ≠ .lock id) → m = n)
    (hless : ∀ z r, e = .answer z r → z.2.1 = .lock id → m + 1 = n) :
    s.GoesOn now id m stage e x := by
  cases ht with
  | leaves hc hf hcall hab hz =>
    obtain rfl := hsame hz
    exact goesOn_of_leaves h hc hf hcall hab hz
  | made op hr =>
    obtain rfl := hnew op rfl
    obtain rfl := hsame fun _ _ he => nomatch he
    exact goesOn_made h op
  | refused op e hr =>
    obtain rfl := hnew op rfl
    obtain rfl := hsame fun _ _ he => nomatch he
    exact goesOn_refused h op e
  | returns hc hst hle =>
    obtain rfl := hsame fun _ _ he => nomatch he
    exact goesOn_returns h hc hst hle
  | goes hc hst =>
    obtain rfl := hsame fun _ _ he => nomatch he
    exact goesOn_goes h hc hst
  | fails hc hst =>
    obtain rfl := hsame fun _ _ he => nomatch he
    exact goesOn_fails h hc hst
  | hungUp hz hc =>
    obtain rfl := hless _ _ rfl hz
    exact goesOn_hungUp h hz hc
  | answered hz hr hc hf =>
    obtain rfl := hless _ _ rfl hz
    exact goesOn_answered h hz hr hc hf
  | @late z r hz hc =>
    -- an attempt that is out has a call
    obtain rfl := hless z r rfl hz
    obtain ⟨-, -, d, hcs, -⟩ := h.out
    cases hc.symm.trans hcs
  | abandoned =>
    obtain rfl := hsame fun _ _ he => nomatch he
    exact goesOn_abandoned h

end

end ClientSession

namespace Career

variable {g id : Nat} {f : LeaseConfig} {x x' y : Career} {e : Event} {st : ClientSession.Step}
  {stage : CallStage}

/-- What there is to say of the calls of a number when this comes. -/
def tells (x : Career) (id : Nat) (e : Event) : List Try :=
  match e.made? x.session x.now with
  | none => []
  | some st => e.tries id x.now ++ st.2.filterMap (Effect.tell? id x.now)

/-- What there is to say of them in a run. -/
def story (g : Nat) (x : Career) (id : Nat) : List Event → List Try
  | [] => []
  | e :: es =>
    match x.step? g e with
    | none => []
    | some y => x.tells id e ++ y.story g id es

/-- How many attempts of this number are out. -/
def attempts (x : Career) (id : Nat) : Nat := x.out.countP (·.2.1 = .lock id)

/-- The calls of this number stand there. -/
def Stands (x : Career) (id : Nat) (stage : CallStage) : Prop :=
  stage.Fits (x.session.called id) (x.attempts id) x.now

theorem attempts_take (x : Career) (st : ClientSession.Step) (id : Nat) :
    (x.take st).attempts id =
      (if .lock id ∈ cancelsOf st.2 then 0 else x.attempts id) +
        (sentOf st.2).countP (·.1 = .lock id) := by
  unfold attempts
  simp only [take, List.countP_append, List.countP_map, List.countP_filter]
  congr 1
  split
  · rename_i hc
    refine List.countP_eq_zero.2 fun z _ hz => ?_
    simp only [Bool.and_eq_true, decide_eq_true_eq] at hz
    exact hz.2 (hz.1 ▸ hc)
  · rename_i hc
    refine List.countP_congr fun z _ => ?_
    simp only [Bool.and_eq_true, decide_eq_true_eq, and_iff_left_iff_imp]
    rintro hz
    rwa [hz]

/-- One attempt less is out if it is answered. -/
theorem attempts_hear? (h : x.hear? e = some x') (id : Nat) :
    x'.session = x.session ∧ x'.now = x.now ∧
      ((∀ z r, e = .answer z r → z.2.1 ≠ .lock id) → x'.attempts id = x.attempts id) ∧
      (∀ z r, e = .answer z r → z.2.1 = .lock id → x'.attempts id + 1 = x.attempts id) := by
  have hh := hears_of_hear? h
  refine ⟨hh.session, hh.now, fun hne => ?_, ?_⟩
  · cases e with
    | answer z r =>
      obtain ⟨hz, -, ho⟩ := hh.answer z r rfl
      have hp := (List.perm_cons_erase hz).countP_eq (·.2.1 = .lock id)
      rw [List.countP_cons_of_neg (by simpa using hne z r rfl), ← ho] at hp
      exact hp.symm
    | goOn | call | abandon | close | pass =>
      cases h
      rfl
  · rintro z r rfl hz
    obtain ⟨hm, -, ho⟩ := hh.answer z r rfl
    have hp := (List.perm_cons_erase hm).countP_eq (·.2.1 = .lock id)
    rw [List.countP_cons_of_pos (by simpa using hz), ← ho] at hp
    exact hp.symm

/-- Every step goes on with the story of a call. -/
theorem Stands.step (h : x.Stands id stage) (hs : x.step? g e = some y)
    (hnew : ∀ op, e = .call id op → stage = .absent) :
    ∃ stage', y.Stands id stage' ∧
      Tries x.session.config.probe x.session.client stage (x.tells id e) stage' ∧
      (stage = .absent → (∀ op, e ≠ .call id op) → stage' = .absent) := by
  obtain ⟨n, rfl, -, -, rfl⟩ | ⟨st, x', hst, hx', rfl⟩ := made_cases hs
  · refine ⟨stage, ?_, .stays, fun ho _ => ho⟩
    cases stage with
    | absent | awaits => exact h
    | waits t =>
      obtain ⟨ha, c, hc, hs⟩ := h
      exact ⟨ha, c, hc, hs.imp_left fun hx => ⟨hx.1, Nat.le_trans hx.2 (Nat.le_add_right _ _)⟩⟩
  · obtain ⟨-, hn, hsame, hless⟩ := attempts_hear? hx' id
    obtain ⟨stage', hfits, ht, ho⟩ :=
      (ClientSession.treats_made? hst id).goesOn h hnew hsame hless
    refine ⟨stage', ?_, ?_, ho⟩
    · rw [Stands, attempts_take]
      exact hn ▸ hfits
    · rw [tells, hst]
      exact ht

/-- Whose session it is and how it is set up does not change. -/
theorem settings_step (ho : x.Orderly g f) (hs : x.step? g e = some y) :
    y.session.client = x.session.client ∧ y.session.config = x.session.config ∧
      y.session.candidates = x.session.candidates := by
  obtain ⟨n, -, -, -, rfl⟩ | ⟨st, x', hst, hh, rfl⟩ := step_cases hs
  · exact ⟨rfl, rfl, rfl⟩
  · cases ClientSession.fares_made? (hh.tidy ho) hst with
    | asks l => cases l <;> exact ⟨rfl, rfl, rfl⟩
    | recovers =>
      simp only [take, ClientSession.recover_eq]
      exact ⟨trivial, trivial, trivial⟩
    | _ => exact ⟨rfl, rfl, rfl⟩

/-- The numbers under which calls are made. -/
def numbers (es : List Event) : List Nat :=
  es.filterMap fun
    | .call id _ => some id
    | _ => none

/-- The story of a call that is made once is in order. -/
theorem Stands.run (ho : x.Orderly g f) (h : x.Stands id stage) {es : List Event}
    (hr : x.run? g es = some y) (hnew : id ∈ numbers es → stage = .absent)
    (hone : (numbers es).count id ≤ 1) :
    ∃ stage', y.Stands id stage' ∧
      Tries x.session.config.probe x.session.client stage (x.story g id es) stage' := by
  induction es generalizing x stage with
  | nil =>
    cases hr
    exact ⟨stage, h, .stays⟩
  | cons e es ih =>
    obtain ⟨w, hw, hr⟩ : ∃ w, x.step? g e = some w ∧ w.run? g es = some y :=
      Option.bind_eq_some_iff.1 hr
    have hcall : ∀ op, e = .call id op → id ∈ numbers (e :: es) ∧ id ∉ numbers es := by
      rintro op rfl
      change (id :: numbers es).count id ≤ 1 at hone
      rw [List.count_cons_self] at hone
      exact ⟨List.mem_cons_self, List.count_eq_zero.1 (by omega)⟩
    have hsub : (numbers es).Sublist (numbers (e :: es)) :=
      (List.sublist_cons_self e es).filterMap _
    obtain ⟨stage', hst, ht, ho'⟩ := h.step hw fun op he => hnew (hcall op he).1
    obtain ⟨hclient, hconfig, -⟩ := settings_step ho hw
    obtain ⟨last, hlast, htl⟩ := ih (ho.step hw) hst hr
      (fun hm => ho' (hnew (hsub.mem hm)) fun op he => (hcall op he).2 hm)
      (Nat.le_trans (hsub.count_le id) hone)
    refine ⟨last, hlast, ?_⟩
    rw [story, hw]
    rw [hclient, hconfig] at htl
    exact ht.append htl

end Career

end LockCell
