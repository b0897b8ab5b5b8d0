import Mathlib.Data.List.Nodup
import LockCell.Proofs.Cell.Claims
import LockCell.Proofs.Client.Phases

/-
  LockCell.Proofs.Client.Belief — the locks that a client believes it holds, and the requests
  that may tell it otherwise.

  A client keeps book (`Booked`): each lock request that is out is that of one pending call,
  which it will end; an acquire is out at the present server; and a question to a candidate
  claims at least the locks on the list, which grows while no question is out.

  The list is touched by lock calls only. What keeps the session alive sends keep-alives to the
  server in use and questions with the list as it is (`upkeep_watchStep?`). So the books are
  kept by whatever the session does of itself (`booked_watchStep?`, `booked_callStep?`), if no
  acquire is out when it goes over to another server, and by every answer that it gets
  (`booked_upkeepAnswer`, `booked_lockAnswer_error`, `booked_lockAnswer_reply`), if no candidate
  is asked when an acquire is answered.
-/

namespace LockCell

/-- The numbers of the lock calls whose requests are out. -/
def locksOf (out : List Sent) : List Nat :=
  out.filterMap fun x =>
    match x.1 with
    | .lock id => some id
    | _ => none

theorem locksOf_append (l m : List Sent) : locksOf (l ++ m) = locksOf l ++ locksOf m :=
  List.filterMap_append ..

theorem mem_locksOf {id : Nat} {out : List Sent} :
    id ∈ locksOf out ↔ ∃ a q, (Ask.lock id, a, q) ∈ out := by
  unfold locksOf
  rw [List.mem_filterMap]
  constructor
  · rintro ⟨⟨ask, a, q⟩, hm, h⟩
    cases ask with
    | keepAlive | probe => cases h
    | lock i =>
      cases h
      exact ⟨a, q, hm⟩
  · rintro ⟨a, q, hm⟩
    exact ⟨_, hm, rfl⟩

namespace ClientSession

variable {s s' : ClientSession} {now id : Nat} {out out' : List Sent} {x : Step} {c d : LockCall}

/-- An acquire of the client is out. -/
def Acquiring (s : ClientSession) (out : List Sent) : Prop :=
  ∃ id a p m, (Ask.lock id, a, some (Request.acquireLock s.client p m)) ∈ out

structure Booked (s : ClientSession) (out : List Sent) : Prop where
  ids : (s.calls.map LockCall.id).Nodup
  flies : ∀ id a q, (.lock id, a, q) ∈ out → ∃ d ∈ s.calls, d.id = id ∧ d.state = .flying ∧
    q = some (d.op.request s.client)
  once : (locksOf out).Nodup
  claims : s.phase ≠ .expired → ∀ a d, (.probe, a, some (.keepAlive s.client (some d))) ∈ out →
    s.held.Within d
  acquires : s.phase ≠ .expired → ∀ id a p m,
    (.lock id, a, some (.acquireLock s.client p m)) ∈ out → a = s.server

theorem Booked.mono (h : s.Booked out) (ho : out'.Sublist out) : s.Booked out' where
  ids := h.ids
  flies id a q hm := h.flies id a q (ho.mem hm)
  once := h.once.sublist (ho.filterMap _)
  claims hp a d hm := h.claims hp a d (ho.mem hm)
  acquires hp id a p m hm := h.acquires hp id a p m (ho.mem hm)

theorem booked_begin (cfg : ClientConfig) (a : Addr) (st now : Nat) :
    (begin cfg a st now).Booked [] where
  ids := List.nodup_nil
  flies _ _ _ hm := absurd hm List.not_mem_nil
  once := List.nodup_nil
  claims _ _ _ hm := absurd hm List.not_mem_nil
  acquires _ _ _ _ _ hm := absurd hm List.not_mem_nil

/-- Calls may go whose requests are not out, and the list may shrink, or grow while no
candidate is asked. -/
theorem Booked.of (h : s.Booked out) (hc : s'.client = s.client) (hs : s'.server = s.server)
    (hp : s'.phase = s.phase) (hi : (s'.calls.map LockCall.id).Nodup)
    (hf : ∀ d ∈ s.calls, d.id ∈ locksOf out → d ∈ s'.calls)
    (hh : s.phase ≠ .expired → s'.held.Within s.held ∨ probesOf out = []) : s'.Booked out where
  ids := hi
  flies id a q hm := by
    obtain ⟨d, hd, rfl, hst, hq⟩ := h.flies id a q hm
    exact ⟨d, hf d hd (mem_locksOf.2 ⟨a, q, hm⟩), rfl, hst, hc ▸ hq⟩
  once := h.once
  claims hne a d hm := by
    rw [hc] at hm
    rcases hh (hp ▸ hne) with hh | hh
    · exact hh.trans (h.claims (hp ▸ hne) a d hm)
    · have hm := mem_probesOf hm
      rw [hh] at hm
      cases hm
  acquires hne id a p m hm := by
    rw [hc] at hm
    rw [hs]
    exact h.acquires (hp ▸ hne) id a p m hm

/-! ## What keeps the session alive -/

/-- A keep-alive to the server in use, or a question with the list as it is. -/
def Upkeep (s : ClientSession) (z : Sent) : Prop :=
  (∃ g, z = (.keepAlive g, s.server, some (.keepAlive s.client none))) ∨
    ∃ a, z = (.probe, a, some (.keepAlive s.client (some s.held)))

theorem upkeep_renew (s : ClientSession) (now : Nat) :
    ∀ z ∈ sentOf (s.renew now).2, (s.renew now).1.Upkeep z := by
  unfold renew
  split
  · intro z hz
    exact Or.inl ⟨s.generation, List.mem_singleton.1 hz⟩
  · exact fun z hz => absurd hz List.not_mem_nil

theorem upkeep_ask (s : ClientSession) (now : Nat) (l : List Addr) :
    ∀ z ∈ sentOf (s.ask now l).2, (s.ask now l).1.Upkeep z := by
  cases l with
  | nil => exact fun z hz => absurd hz List.not_mem_nil
  | cons a rest =>
    intro z hz
    exact Or.inr ⟨a, List.mem_singleton.1 hz⟩

theorem upkeep_take (s : ClientSession) (g : Nat) (r : Except Error KeepAlive) (now : Nat) :
    ∀ z ∈ sentOf (s.take g r now).2, (s.take g r now).1.Upkeep z := by
  unfold take
  dsimp only
  repeat' split
  · exact upkeep_renew s now
  · simp
  · exact upkeep_renew _ now
  · exact upkeep_renew _ now
  · exact upkeep_renew _ now

theorem upkeep_watchStep? (hx : s.watchStep? now = some x) : ∀ z ∈ sentOf x.2, x.1.Upkeep z := by
  cases WatchStep.of_watchStep? hx with
  | ends | falls | refused | runsOut => simp
  | hears => exact upkeep_take _ _ _ now
  | renews => exact upkeep_renew s now
  | recovers => exact upkeep_renew _ now
  | asks => exact upkeep_ask s now _

/-- The watch changes the server only when it has found one that takes the session. -/
theorem watchStep?_cases (h : s.Tidy now out) (hx : s.watchStep? now = some x) :
    (x.1.server = s.server ∧ (x.1.found = s.found ∨ x.1.found = none) ∧
      (x.1.phase = .active → s.phase = .active) ∧ (s.phase = .expired → x.1.phase = .expired)) ∨
    ∃ e a k t, s.phase = .jeopardy e ∧ s.found = some (a, k, t) ∧ k.expired = false ∧
      x = s.recover a k t now := by
  have hf := fares_watchStep? h hx
  have hexp : s.phase = .expired → x.1.phase = .expired := fun hp => (hf.of_expired hp).1
  cases hf with
  | aside => exact Or.inl ⟨rfl, Or.inl rfl, id, id⟩
  | extended hp => exact Or.inl ⟨rfl, Or.inl rfl, id, id⟩
  | refused => exact Or.inl ⟨rfl, Or.inl rfl, nofun, fun _ => rfl⟩
  | falls => exact Or.inl ⟨rfl, Or.inr rfl, nofun, hexp⟩
  | asks l => cases l <;> exact Or.inl ⟨rfl, Or.inl rfl, id, id⟩
  | recovers hp hfound he => exact Or.inr ⟨_, _, _, _, hp, hfound, he, rfl⟩
  | runsOut => exact Or.inl ⟨rfl, Or.inl rfl, nofun, fun _ => rfl⟩
  | ends hp => exact Or.inl ⟨rfl, Or.inl rfl, id, id⟩

/-- A step that leaves the locks alone, and the server unless no acquire is out. -/
theorem Booked.aside (h : s.Booked out) (ha : s.Aside x) (hu : ∀ z ∈ sentOf x.2, x.1.Upkeep z)
    (hp : s.phase = .expired → x.1.phase = .expired)
    (hs : x.1.server = s.server ∨ ¬ s.Acquiring out) : x.1.Booked (out ++ sentOf x.2) := by
  have old : ∀ {id a q}, (Ask.lock id, a, q) ∈ out ++ sentOf x.2 → (Ask.lock id, a, q) ∈ out := by
    intro id a q hm
    rcases List.mem_append.1 hm with hm | hm
    · exact hm
    · rcases hu _ hm with ⟨g, e⟩ | ⟨b, e⟩ <;> cases e
  have hlocks : locksOf (sentOf x.2) = [] := by
    refine List.eq_nil_iff_forall_not_mem.2 fun id hid => ?_
    obtain ⟨a, q, hm⟩ := mem_locksOf.1 hid
    rcases hu _ hm with ⟨g, e⟩ | ⟨b, e⟩ <;> cases e
  refine ⟨ha.calls ▸ h.ids, fun id a q hm => ?_, ?_, fun hne a d hm => ?_, fun hne id a p m hm => ?_⟩
  · rw [ha.calls, ha.client]
    exact h.flies id a q (old hm)
  · rw [locksOf_append, hlocks, List.append_nil]
    exact h.once
  · rw [ha.held]
    rcases List.mem_append.1 hm with hm | hm
    · rw [ha.client] at hm
      exact h.claims (fun e => hne (hp e)) a d hm
    · rcases hu _ hm with ⟨g, e⟩ | ⟨b, e⟩ <;> cases e
      exact ha.held ▸ .refl _
  · have hm := old hm
    rw [ha.client] at hm
    rcases hs with hs | hs
    · exact hs ▸ h.acquires (fun e => hne (hp e)) id a p m hm
    · exact absurd ⟨id, a, p, m, hm⟩ hs

theorem booked_watchStep? (h : s.Booked out) (ht : s.Tidy now out)
    (hq : (∃ e, s.phase = .jeopardy e) → s.found ≠ none → ¬ s.Acquiring out)
    (hx : s.watchStep? now = some x) :
    x.1.Booked (out ++ sentOf x.2) := by
  have ha := aside_watchStep? hx
  have hu := upkeep_watchStep? hx
  rcases watchStep?_cases ht hx with ⟨hs, -, -, hp⟩ | ⟨e, a, k, t, hp, hf, -, rfl⟩
  · exact h.aside ha hu hp (Or.inl hs)
  · refine h.aside ha hu (fun he => ?_) (Or.inr (hq ⟨e, hp⟩ (by simp [hf])))
    cases hp.symm.trans he

/-! ## Lock calls -/

theorem nodup_setCall (h : (s.calls.map LockCall.id).Nodup) (c : LockCall) :
    ((s.setCall c).calls.map LockCall.id).Nodup := by
  have e : (s.setCall c).calls.map LockCall.id = s.calls.map LockCall.id := by
    simp only [setCall, List.map_map]
    refine List.map_congr_left fun d _ => ?_
    simp only [Function.comp]
    split
    · rename_i e
      exact e.symm
    · rfl
  rw [e]
  exact h

theorem nodup_dropCall (h : (s.calls.map LockCall.id).Nodup) (id : Nat) :
    ((s.dropCall id).calls.map LockCall.id).Nodup :=
  h.sublist (List.filter_sublist.map _)

theorem mem_setCall (hd : d ∈ s.calls) (hne : d.id ≠ c.id) : d ∈ (s.setCall c).calls :=
  List.mem_map.2 ⟨d, hd, if_neg hne⟩

theorem mem_dropCall (hd : d ∈ s.calls) (hne : d.id ≠ id) : d ∈ (s.dropCall id).calls :=
  List.mem_filter.2 ⟨hd, by simpa using hne⟩

/-- The call changes its state while its request is not out. -/
theorem Booked.setCall (h : s.Booked out) (hid : c.id ∉ locksOf out) : (s.setCall c).Booked out :=
  h.of rfl rfl rfl (nodup_setCall h.ids c) (fun _ hd hm => mem_setCall hd fun e => hid (e ▸ hm))
    fun _ => Or.inl (.refl _)

theorem Booked.dropCall (h : s.Booked out) (hid : id ∉ locksOf out) : (s.dropCall id).Booked out :=
  h.of rfl rfl rfl (nodup_dropCall h.ids id) (fun _ hd hm => mem_dropCall hd fun e => hid (e ▸ hm))
    fun _ => Or.inl (.refl _)

/-- The request of a call that does not fly is not out. -/
theorem Booked.not_mem_locksOf (h : s.Booked out) (hc : c ∈ s.calls) (hst : c.state ≠ .flying) :
    c.id ∉ locksOf out := by
  intro hid
  obtain ⟨a, q, hm⟩ := mem_locksOf.1 hid
  obtain ⟨d, hd, hdc, hfly, -⟩ := h.flies c.id a q hm
  obtain rfl := List.inj_on_of_nodup_map h.ids hd hc hdc
  exact hst hfly

theorem booked_callStep? (h : s.Booked out) (hc : c ∈ s.calls)
    (hx : s.callStep? now c = some x) : x.1.Booked (out ++ sentOf x.2) := by
  have rests : c.state ≠ .flying → c.id ∉ locksOf out := h.not_mem_locksOf hc
  cases CallStep.of_callStep? hx with
  | returns hst =>
    rw [sentOf_nil, List.append_nil]
    exact h.setCall (c := { c with state := .gate }) (rests (by simp [hst]))
  | fails hst =>
    rw [sentOf_finish, sentOf_nil, List.append_nil]
    exact h.dropCall (rests (by simp [hst]))
  | goes hst =>
    have hid := rests (by simp [hst])
    have h₁ := h.setCall (c := { c with state := .flying }) hid
    have hmem : { c with state := .flying } ∈ (s.setCall { c with state := .flying }).calls :=
      List.mem_map.2 ⟨c, hc, if_pos rfl⟩
    refine ⟨h₁.ids, fun id a q hm => ?_, ?_, fun hne a d hm => ?_, fun hne id a p m hm => ?_⟩
    · rcases List.mem_append.1 hm with hm | hm
      · exact h₁.flies id a q hm
      · simp only [sentOf_send, sentOf_nil, List.mem_singleton, Prod.mk.injEq, Ask.lock.injEq] at hm
        obtain ⟨rfl, -, rfl⟩ := hm
        exact ⟨_, hmem, rfl, rfl, rfl⟩
    · rw [locksOf_append]
      refine List.nodup_append.2 ⟨h.once, List.nodup_singleton _, ?_⟩
      intro i hi j hj e
      rw [List.mem_singleton.1 hj] at e
      exact hid (e ▸ hi)
    · rcases List.mem_append.1 hm with hm | hm
      · exact h₁.claims hne a d hm
      · simp at hm
    · rcases List.mem_append.1 hm with hm | hm
      · exact h₁.acquires hne id a p m hm
      · simp only [sentOf_send, sentOf_nil, List.mem_singleton, Prod.mk.injEq] at hm
        exact hm.2.1

theorem callStep?_eq (hx : s.callStep? now c = some x) :
    x.1.server = s.server ∧ x.1.found = s.found ∧ x.1.phase = s.phase ∧ x.1.held = s.held ∧
      ∀ g a q, (Ask.keepAlive g, a, q) ∉ sentOf x.2 := by
  cases CallStep.of_callStep? hx with
  | returns | goes | fails => exact ⟨rfl, rfl, rfl, rfl, by simp⟩

theorem booked_call (h : s.Booked out) (hid : ∀ d ∈ s.calls, d.id ≠ id) (op : LockOp) :
    (s.call id op).1.Booked out ∧ sentOf (s.call id op).2 = [] := by
  unfold call
  split
  · exact ⟨h, rfl⟩
  · refine ⟨h.of rfl rfl rfl ?_ (fun d hd _ => List.mem_append_left _ hd) fun _ => Or.inl (.refl _),
      rfl⟩
    rw [List.map_append, List.nodup_append]
    refine ⟨h.ids, List.nodup_singleton _, ?_⟩
    intro i hi j hj e
    obtain ⟨d, hd, rfl⟩ := List.mem_map.1 hi
    rw [List.mem_singleton.1 hj] at e
    exact hid d hd e

/-- The caller of a call has gone whose request is not out. -/
theorem booked_abandon (h : s.Booked out) (hid : ∀ d ∈ s.calls, d.id = id → d.state ≠ .flying) :
    (s.abandon id).1.Booked out ∧ sentOf (s.abandon id).2 = [] := by
  refine ⟨h.dropCall fun hm => ?_, ?_⟩
  · obtain ⟨a, q, hm⟩ := mem_locksOf.1 hm
    obtain ⟨d, hd, hdc, hfly, -⟩ := h.flies id a q hm
    exact hid d hd hdc hfly
  · unfold abandon
    dsimp only
    split <;> rfl

theorem booked_close (h : s.Booked out) : s.close.Booked out where
  ids := h.ids
  flies := h.flies
  once := h.once
  claims hne := absurd rfl hne
  acquires hne := absurd rfl hne

/-! ## Answers -/

@[simp] theorem client_answer (s : ClientSession) (ask : Ask) (r : Except Error Response)
    (now : Nat) : (s.answer ask r now).1.client = s.client := by
  cases ask with
  | keepAlive g => rfl
  | probe => exact (probe_eq s r now).1
  | lock i =>
    simp only [answer]
    unfold lockAnswer record
    repeat' split
    all_goals rfl

theorem upkeep_answer {ask : Ask} (h : ∀ i, ask ≠ .lock i) (r : Except Error Response)
    (now : Nat) :
    ∀ z ∈ sentOf (s.answer ask r now).2, (s.answer ask r now).1.Upkeep z := by
  cases ask with
  | keepAlive g => exact fun z hz => absurd hz List.not_mem_nil
  | lock i => exact absurd rfl (h i)
  | probe =>
    show ∀ z ∈ sentOf (s.probeAnswer (keptOf r) now).2, (s.probeAnswer (keptOf r) now).1.Upkeep z
    unfold probeAnswer
    repeat' split
    · exact fun z hz => absurd hz List.not_mem_nil
    · exact upkeep_ask s now _
    · exact fun z hz => absurd hz List.not_mem_nil

/-- An answer to anything but a lock call leaves phase and server as they are; it tells of a
server only if it is that of a candidate, and a yes. -/
theorem answer_eq {ask : Ask} (h : ∀ i, ask ≠ .lock i) (r : Except Error Response)
    (now : Nat) :
    (s.answer ask r now).1.server = s.server ∧ (s.answer ask r now).1.phase = s.phase ∧
      ((s.answer ask r now).1.found = s.found ∨ ask = .probe ∧ ∃ a t rest k,
        s.probe = .asking a t rest ∧ keptOf r = .ok k ∧
        (s.answer ask r now).1.found = some (a, k, t)) := by
  cases ask with
  | keepAlive g => exact ⟨rfl, rfl, Or.inl rfl⟩
  | lock i => exact absurd rfl (h i)
  | probe =>
    simp only [answer]
    unfold probeAnswer
    split
    · rename_i a t rest hp
      split
      · rename_i k hk
        exact ⟨rfl, rfl, Or.inr ⟨trivial, a, t, rest, k, hp, hk, rfl⟩⟩
      · cases rest <;> exact ⟨rfl, rfl, Or.inl rfl⟩
    · exact ⟨rfl, rfl, Or.inl rfl⟩

@[simp] theorem phase_answer (s : ClientSession) (ask : Ask) (r : Except Error Response)
    (now : Nat) : (s.answer ask r now).1.phase = s.phase := by
  by_cases hask : ∃ i, ask = .lock i
  · obtain ⟨i, rfl⟩ := hask
    simp only [answer]
    unfold lockAnswer record
    repeat' split
    all_goals rfl
  · exact (answer_eq (s := s) (fun i e => hask ⟨i, e⟩) r now).2.1

theorem booked_upkeepAnswer (h : s.Booked out) {ask : Ask} (hask : ∀ i, ask ≠ .lock i)
    (r : Except Error Response) :
    (s.answer ask r now).1.Booked (out ++ sentOf (s.answer ask r now).2) := by
  obtain ⟨hs, hp, -⟩ := answer_eq (s := s) hask r now
  exact h.aside (aside_answer hask r) (upkeep_answer hask r now) (fun he => hp.trans he) (Or.inl hs)

/-- A lock call that comes to an error goes back to rest or is over. -/
theorem booked_lockAnswer_error (h : s.Booked out) (hid : id ∉ locksOf out) (e : Error)
    (now : Nat) :
    ∃ cs, (s.lockAnswer id (.error e) now).1 = { s with calls := cs } ∧
      (s.lockAnswer id (.error e) now).1.Booked out ∧
      sentOf (s.lockAnswer id (.error e) now).2 = [] := by
  unfold lockAnswer
  split
  · exact ⟨s.calls, rfl, h, rfl⟩
  · rename_i c hfind
    obtain rfl : c.id = id := by simpa using List.find?_some hfind
    dsimp only
    split
    · exact ⟨_, rfl, h.setCall (c := { c with state := _ }) hid, rfl⟩
    · exact ⟨_, rfl, h.dropCall hid, rfl⟩

/-- The server's answer ends the call, and is put to the book; an acquire is answered while no
candidate is asked. -/
theorem booked_lockAnswer_reply (h : s.Booked out) (hc : c ∈ s.calls) (hid : c.id ∉ locksOf out)
    (hq : s.phase ≠ .expired → (∃ p m, c.op = .acquireLock p m) → probesOf out = [])
    (r : Except Error Bool) (now : Nat) :
    ∃ b, s.lockAnswer c.id (Delivery.ofReply (Cell.toReply (r.map c.op.response))) now =
        ({ s.dropCall c.id with held := c.op.book s.held r }, [.finish c.id b]) ∧
      Booked { s.dropCall c.id with held := c.op.book s.held r } out := by
  have hfind : s.calls.find? (·.id = c.id) = some c := by
    cases hf : s.calls.find? (·.id = c.id) with
    | none =>
      have hne := List.find?_eq_none.1 hf c hc
      simp at hne
    | some d =>
      have hd : d.id = c.id := by simpa using List.find?_some hf
      rw [List.inj_on_of_nodup_map h.ids (List.mem_of_find?_eq_some hf) hc hd]
  obtain ⟨b, hb⟩ := exists_lockAnswer_reply hfind r now
  refine ⟨b, hb, (h.dropCall hid).of rfl rfl rfl (nodup_dropCall h.ids c.id) (fun d hd _ => hd) ?_⟩
  intro hne
  by_cases hop : ∃ p m, c.op = .acquireLock p m
  · exact Or.inr (hq hne hop)
  · refine Or.inl (LockOp.book_within (fun p m e => ?_) s.held r)
    exact hop ⟨p, m, e⟩

end ClientSession

end LockCell
