import LockCell.Proofs.Cell.LeaseSafety
import LockCell.Proofs.Cell.Strangers

/-
  LockCell.Proofs.Cell.Served — a client's books, and what its servers have of them.

  The client's session has its books in order (`Own`) if it keeps them (`Booked`) and the servers
  bear it out (`Served`): the server in use lists what the client believes, and one that has said
  yes lists it too, in a session that lasts until the answer is looked at (`Backed`).

  Whatever happens is fair (`Fair`) if the books are in order after it and a session that comes
  out of jeopardy by it is at a server that backs its list. What is calm is fair (`Calm.fair`),
  and so are the session's own steps (`fair_clientStep?`): it goes over to a server only after a
  yes. An answer is fair if a lock call has come to an error, and a yes is backed (`fair_deliver`).
-/

namespace LockCell

namespace Cell

variable {x : Client} {c c' c'' : Cell} {a : Addr} {d e : Dict Mode} {i : Nat}
  {s s' : ClientSession} {out out' : List Sent}

/-- The client's live session at the server that answers there, if it has one, has every lock of
the list. -/
def Lists (c : Cell) (x : Client) (a : Addr) (d : Dict Mode) : Prop :=
  ∀ e, c.listed? x a = some e → d.Within e

/-- The client has a live session there, which lasts, and has every lock of the list. -/
structure Backed (c : Cell) (x : Client) (a : Addr) (d : Dict Mode) : Prop where
  lists : c.Lists x a d
  owed : ∃ l, 0 < l ∧ c.Owed x a c.now l

/-- Where the client's requests go it is known, the server that it uses lists what it believes,
and so does one that has said yes. -/
structure Served (x : Client) (c : Cell) (s : ClientSession) (out : List Sent) : Prop where
  knows : c.Knows x s.server
  told : ∀ g a q, (.keepAlive g, a, q) ∈ out → c.Knows x a
  lists : s.phase ≠ .expired → c.Lists x s.server s.held
  found : s.phase ≠ .expired → ∀ a k st, s.found = some (a, k, st) → k.expired = false →
    c.Backed x a s.held

theorem Lists.mono (h : c.Lists x a e) (hd : d.Within e) : c.Lists x a d :=
  fun _ hl => hd.trans (h _ hl)

theorem lists_iff {v : Server} (hv : c.serverAt? a = some v) : c.Lists x a d ↔ v.Lists x d := by
  unfold Lists listed?
  rw [hv]
  rfl

theorem Lists.calm (h : c.Lists x a d) (hc : Calm x c c') (hk : c.Kept) : c'.Lists x a d :=
  fun e he => h e (hc.listed hk a e he)

theorem Backed.calm (h : c.Backed x a d) (hc : Calm x c c') (hk : c.Kept) : c'.Backed x a d := by
  obtain ⟨l, hl, ho⟩ := h.owed
  have ho := hc.owed hk a l ho
  rw [← hc.now] at ho
  exact ⟨h.lists.calm hc hk, l, hl, ho⟩

theorem Backed.mono (h : c.Backed x a e) (hd : d.Within e) : c.Backed x a d :=
  ⟨h.lists.mono hd, h.owed⟩

theorem Owed.knows {st l now : Nat} (h : ∃ v, c.serverAt? a = some v ∧ v.Owes x st l now) :
    c.Knows x a := by
  obtain ⟨v, hv, i, s, hs, -⟩ := h
  exact ⟨v, hv, Dict.mem_of_getElem? (Server.session?_eq_some_iff.1 hs).1⟩

theorem Backed.knows (h : c.Backed x a d) : c.Knows x a := by
  obtain ⟨l, -, ho⟩ := h.owed
  exact Owed.knows (owed_iff.1 ho)

/-- The live session that the list is backed by. -/
theorem Backed.session (h : c.Backed x a d) : ∃ v j t, c.serverAt? a = some v ∧
    v.session? x = some (j, t) ∧ t.ended = false ∧ d.Within t.held := by
  obtain ⟨l, hl, ho⟩ := h.owed
  obtain ⟨v, hv, ho⟩ := owed_iff.1 ho
  obtain ⟨j, t, ht, hlive, -⟩ := ho.live (by omega)
  refine ⟨v, j, t, hv, ht, hlive, h.lists _ ?_⟩
  exact listed?_eq_some_iff.2 ⟨v, hv, Server.listed?_of_live ht hlive⟩

namespace Served

theorem calm (h : Served x c s out) (hc : Calm x c c') (hk : c.Kept) (ho : out'.Sublist out) :
    Served x c' s out' where
  knows := hc.knows _ h.knows
  told g a q hm := hc.knows a (h.told g a q (ho.mem hm))
  lists hp := (h.lists hp).calm hc hk
  found hp a k st hf he := (h.found hp a k st hf he).calm hc hk

/-- The client stays with its server, and its list does not grow. -/
theorem of (h : Served x c s out) (hs : s'.server = s.server)
    (hp : s.phase = .expired → s'.phase = .expired) (hf : s'.found = s.found ∨ s'.found = none)
    (hh : s'.held.Within s.held)
    (ho : ∀ g a q, (.keepAlive g, a, q) ∈ out' → (.keepAlive g, a, q) ∈ out ∨ a = s.server) :
    Served x c s' out' where
  knows := hs ▸ h.knows
  told g a q hm := by
    rcases ho g a q hm with hm | rfl
    · exact h.told g a q hm
    · exact h.knows
  lists hne := by
    rw [hs]
    exact (h.lists fun e => hne (hp e)).mono hh
  found hne a k st hfound he := by
    rcases hf with hf | hf
    · exact (h.found (fun e => hne (hp e)) a k st (hf ▸ hfound) he).mono hh
    · rw [hf] at hfound
      cases hfound

end Served

structure Own (x : Client) (c : Cell) (s : ClientSession) (out : List Sent) : Prop where
  booked : s.Booked out
  served : Served x c s out

/-- The books of the client's session are in order, if it has one and no other. -/
def Owns (x : Client) (c : Cell) : Prop :=
  c.Lone x → ∀ (i : Nat) (s : ClientSession), c.clients[i]? = some s → s.client = x →
    Own x c s (c.out i)

/-- The client's session is in jeopardy in `c`, and active in `c'`. -/
structure Resumes (x : Client) (c c' : Cell) (s' : ClientSession) : Prop where
  client : s'.client = x
  jeopardy : ∃ (i : Nat) (s : ClientSession) (e : Nat), c.clients[i]? = some s ∧ s.client = x ∧ s.phase = .jeopardy e ∧
    c'.clients[i]? = some s'
  active : s'.phase = .active

/-- The books are in order in `c'`, and a session that has come out of jeopardy is at a server
that backs its list. -/
structure Fair (x : Client) (c c' : Cell) : Prop where
  owns : Owns x c'
  resumes : c'.Lone x → ∀ s', Resumes x c c' s' → c'.Backed x s'.server s'.held

theorem Calm.lone (h : Calm x c c') (hl : c'.Lone x) : c.Lone x := by
  intro i j s t hi hj hs ht
  exact hl i j s t ((h.clients i s hs).2 hi) ((h.clients j t ht).2 hj) hs ht

theorem Owns.calm (h : Owns x c) (hc : Calm x c c') (hk : c.Kept) : Owns x c' := by
  intro hl i s hi hx
  have ho := h (hc.lone hl) i s ((hc.clients i s hx).1 hi) hx
  exact ⟨ho.booked.mono (hc.out i s hi hx), ho.served.calm hc hk (hc.out i s hi hx)⟩

theorem Calm.not_resumes (hc : Calm x c c') : ¬ Resumes x c c' s' := by
  rintro ⟨-, ⟨i, s, e, hi, hx, hj, hi'⟩, ha⟩
  -- the session is the same
  rw [(hc.clients i s hx).2 hi] at hi'
  cases hi'
  cases hj.symm.trans ha

theorem Calm.fair (hc : Calm x c c') (hk : c.Kept) (h : Owns x c) : Fair x c c' :=
  ⟨h.calm hc hk, fun _ _ hr => absurd hr hc.not_resumes⟩

theorem Calm.trans_fair (hc : Calm x c c') (h : Fair x c' c'') : Fair x c c'' := by
  refine ⟨h.owns, fun hl s' hr => ?_⟩
  obtain ⟨i, s, e, hi, hx, hj, hi'⟩ := hr.jeopardy
  exact h.resumes hl s' ⟨hr.client, ⟨i, s, e, (hc.clients i s hx).2 hi, hx, hj, hi'⟩, hr.active⟩

theorem Fair.calm (h : Fair x c c') (hc : Calm x c' c'') (hk : c'.Kept) : Fair x c c'' := by
  refine ⟨h.owns.calm hc hk, fun hl s' hr => ?_⟩
  obtain ⟨i, s, e, hi, hx, hj, hi'⟩ := hr.jeopardy
  have hi' := (hc.clients i s' hr.client).1 hi'
  exact (h.resumes (hc.lone hl) s' ⟨hr.client, ⟨i, s, e, hi, hx, hj, hi'⟩, hr.active⟩).calm hc hk

/-! ## The client's own steps -/

theorem Backed.setClient (h : c.Backed x a d) (i : Nat) (st : ClientSession.Step) :
    (c.setClient i st).Backed x a d :=
  ⟨h.lists, h.owed⟩

/-- The client's session takes a step that keeps the books, as they have become. -/
theorem fair_setClient_self (hi : c.clients[i]? = some s) (hx : s.client = x)
    {st : ClientSession.Step} (hc : st.1.client = s.client)
    (h : c.Lone x → Own x c st.1 (c.out i ++ sentOf st.2) ∧
      ((∃ e, s.phase = .jeopardy e) → st.1.phase = .active →
        c.Backed x st.1.server st.1.held)) : Fair x c (c.setClient i st) := by
  have hself : (c.setClient i st).clients[i]? = some st.1 := by
    rw [clients_setClient hi, if_pos rfl]
  have stay := stay_setClient hi hc
  refine ⟨fun hl j t hj ht => ?_, fun hl s' hr => ?_⟩
  · obtain rfl := hl j i t st.1 hj hself ht (hc.trans hx)
    rw [hself] at hj
    cases hj
    obtain ⟨hb, hs⟩ := (h (stay.lone hl)).1
    rw [out_setClient_self]
    exact ⟨hb, hs.knows, hs.told, hs.lists, fun hp a k t hf he =>
      (hs.found hp a k t hf he).setClient _ _⟩
  · obtain ⟨j, t, e, hj, ht, hje, hj'⟩ := hr.jeopardy
    obtain rfl := stay.lone hl j i t s hj hi ht hx
    rw [hi] at hj
    cases hj
    rw [hself] at hj'
    cases hj'
    exact ((h (stay.lone hl)).2 ⟨e, hje⟩ hr.active).setClient _ _

/-- A client session takes a step: another client's, or one that keeps the books. -/
theorem fair_setClient (hk : c.Kept) (ho : Owns x c) (hi : c.clients[i]? = some s)
    {st : ClientSession.Step} (hc : st.1.client = s.client)
    (h : c.Lone x → s.client = x → Own x c s (c.out i) → Own x c st.1 (c.out i ++ sentOf st.2) ∧
      ((∃ e, s.phase = .jeopardy e) → st.1.phase = .active →
        c.Backed x st.1.server st.1.held)) : Fair x c (c.setClient i st) := by
  by_cases hx : s.client = x
  · exact fair_setClient_self hi hx hc fun hl => h hl hx (ho hl i s hi hx)
  · exact (calm_setClient hi hx hc).fair hk ho

/-- The watch stays with its server, or goes over to one that backs the list. -/
theorem own_watchStep? (h : Own x c s out) (ht : s.Tidy c.now out)
    (hq : (∃ e, s.phase = .jeopardy e) → s.found ≠ none → ¬ s.Acquiring out)
    {st : ClientSession.Step} (hst : s.watchStep? c.now = some st) :
    Own x c st.1 (out ++ sentOf st.2) ∧ ((∃ e, s.phase = .jeopardy e) → st.1.phase = .active →
      c.Backed x st.1.server st.1.held) := by
  have hb := ClientSession.booked_watchStep? h.booked ht hq hst
  have ha := ClientSession.aside_watchStep? hst
  have hu := ClientSession.upkeep_watchStep? hst
  have told : ∀ g a q, (.keepAlive g, a, q) ∈ out ++ sentOf st.2 →
      (.keepAlive g, a, q) ∈ out ∨ a = st.1.server := by
    intro g a q hm
    rcases List.mem_append.1 hm with hm | hm
    · exact Or.inl hm
    · rcases hu _ hm with ⟨g', e⟩ | ⟨b, e⟩ <;> cases e
      exact Or.inr rfl
  have hw : st.1.held.Within s.held := ha.held ▸ .refl _
  rcases ClientSession.watchStep?_cases ht hst with
    ⟨hs, hf, hact, hexp⟩ | ⟨e, a, k, t, hp, hf, hk, rfl⟩
  · refine ⟨⟨hb, h.served.of hs hexp hf hw ?_⟩, fun hj hp => ?_⟩
    · rw [← hs]
      exact told
    · obtain ⟨e, hj⟩ := hj
      cases hj.symm.trans (hact hp)
  · have hback : c.Backed x a s.held := h.served.found (by simp [hp]) a k t hf hk
    rw [ClientSession.recover_eq] at hb told ⊢
    refine ⟨⟨hb, hback.knows, fun g b q hm => ?_, fun _ => hback.lists, nofun⟩, fun _ _ => hback⟩
    rcases told g b q hm with hm | rfl
    · exact h.served.told g b q hm
    · exact hback.knows

theorem own_callStep? (h : Own x c s out) {d : LockCall} (hd : d ∈ s.calls)
    {st : ClientSession.Step} (hst : s.callStep? c.now d = some st) :
    Own x c st.1 (out ++ sentOf st.2) ∧ st.1.phase = s.phase := by
  obtain ⟨hs, hf, hp, hh, hk⟩ := ClientSession.callStep?_eq hst
  refine ⟨⟨ClientSession.booked_callStep? h.booked hd hst, ?_⟩, hp⟩
  refine h.served.of hs hp.trans (Or.inl hf) (hh ▸ .refl _) fun g a q hm => Or.inl ?_
  rcases List.mem_append.1 hm with hm | hm
  · exact hm
  · exact absurd hm (hk g a q)

theorem own_step? (h : Own x c s out) (ht : s.Tidy c.now out)
    (hq : (∃ e, s.phase = .jeopardy e) → s.found ≠ none → ¬ s.Acquiring out)
    {st : ClientSession.Step} (hst : s.step? c.now = some st) :
    Own x c st.1 (out ++ sentOf st.2) ∧ ((∃ e, s.phase = .jeopardy e) → st.1.phase = .active →
      c.Backed x st.1.server st.1.held) := by
  rcases ClientSession.step?_cases hst with hst | ⟨-, d, hd, hst⟩
  · exact own_watchStep? h ht hq hst
  · obtain ⟨ho, hp⟩ := own_callStep? h hd hst
    refine ⟨ho, fun hj ha => ?_⟩
    obtain ⟨e, hj⟩ := hj
    cases hj.symm.trans (hp.symm.trans ha)

/-- A step that sends nothing, and neither changes server nor comes out of jeopardy. -/
theorem Own.quiet (h : Own x c s out) {st : ClientSession.Step}
    (hb : st.1.Booked out ∧ sentOf st.2 = []) (hs : st.1.server = s.server)
    (hp : st.1.phase = s.phase ∨ st.1.phase = .expired)
    (hf : st.1.found = s.found) (hh : st.1.held = s.held) :
    Own x c st.1 (out ++ sentOf st.2) ∧ ((∃ e, s.phase = .jeopardy e) → st.1.phase = .active →
      c.Backed x st.1.server st.1.held) := by
  obtain ⟨hb, hn⟩ := hb
  rw [hn, List.append_nil]
  refine ⟨⟨hb, h.served.of hs (fun e => ?_) (Or.inl hf) (hh ▸ .refl _) fun _ _ _ => Or.inl⟩,
    fun hj ha => ?_⟩
  · rcases hp with hp | hp
    · exact hp.trans e
    · exact hp
  · obtain ⟨e, hj⟩ := hj
    rcases hp with hp | hp
    · cases hj.symm.trans (hp.symm.trans ha)
    · cases hp.symm.trans ha

theorem fair_clientStep? (h : Safe x c) (ho : Owns x c)
    (hq : ∀ (i : Nat) (s : ClientSession), c.clients[i]? = some s → s.client = x →
      (∃ e, s.phase = .jeopardy e) → s.found ≠ none → ¬ s.Acquiring (c.out i))
    (hc : c.clientStep? = some c') : Fair x c c' := by
  obtain ⟨i, -, hc⟩ := List.exists_of_findSome?_eq_some hc
  obtain ⟨s, hi, hc⟩ := Option.bind_eq_some_iff.1 hc
  obtain ⟨st, hst, hc⟩ := Option.bind_eq_some_iff.1 hc
  cases hc
  have hk := ClientSession.keeps_step? (h.tidy i s hi) hst
  exact fair_setClient h.kept ho hi hk.client fun _ hx how =>
    own_step? how (h.tidy i s hi) (hq i s hi hx) hst

theorem fair_call (hk : c.Kept) (ho : Owns x c) (hi : c.clients[i]? = some s) {id : Nat}
    (hid : s.client = x → ∀ d ∈ s.calls, d.id ≠ id) (op : LockOp) :
    Fair x c (c.setClient i (s.call id op)) := by
  have hq : (s.call id op).1.client = s.client ∧ (s.call id op).1.server = s.server ∧
      (s.call id op).1.phase = s.phase ∧ (s.call id op).1.found = s.found ∧
      (s.call id op).1.held = s.held := by
    unfold ClientSession.call
    split <;> exact ⟨rfl, rfl, rfl, rfl, rfl⟩
  obtain ⟨hc, hs, hp, hf, hh⟩ := hq
  exact fair_setClient hk ho hi hc fun _ hx how =>
    how.quiet (ClientSession.booked_call how.booked (hid hx) op) hs (Or.inl hp) hf hh

theorem fair_close (hk : c.Kept) (ho : Owns x c) (hi : c.clients[i]? = some s) :
    Fair x c (c.setClient i (s.close, [])) :=
  fair_setClient hk ho hi rfl fun _ _ how =>
    how.quiet ⟨ClientSession.booked_close how.booked, rfl⟩ rfl (Or.inr rfl) rfl rfl

theorem fair_abandonLock (hk : c.Kept) (ho : Owns x c) {id : Nat}
    (hid : ∀ s, c.clients[i]? = some s → s.client = x →
      ∀ d ∈ s.calls, d.id = id → d.state ≠ .flying) : Fair x c (c.abandonLock i id) := by
  unfold abandonLock
  split
  · rename_i s hi
    refine fair_setClient hk ho hi rfl fun _ hx how => ?_
    exact how.quiet (ClientSession.booked_abandon how.booked (hid s hi hx)) rfl (Or.inl rfl) rfl rfl
  · exact (Calm.refl c).fair hk ho

/-! ## Searches -/

theorem fair_of_not_lone (h : ¬ c'.Lone x) : Fair x c c' :=
  ⟨fun hl => absurd hl h, fun hl => absurd hl h⟩

/-- The client's first session begins at a server that has made it one. -/
theorem fair_born (h : Safe x c) (id : Nat) {s : Search}
    (hs : s.config.client = x) (hk : c.Unborn x → c.Knows x s.current) :
    Fair x c (c.born id s) := by
  have hget : ∀ j, (c.born id s).clients[j]? = if j = c.clients.size then
      some (.begin s.config s.current s.begun c.now) else c.clients[j]? :=
    fun j => Array.getElem?_push
  by_cases hu : c.Unborn x
  · refine ⟨fun _ j t hj ht => ?_, fun _ s' hr => ?_⟩
    · rw [hget] at hj
      split at hj
      · rename_i e
        subst e
        cases hj
        have hnil : (c.born id s).out c.clients.size = [] := h.out_eq_nil (Nat.le_refl _)
        rw [hnil]
        refine ⟨ClientSession.booked_begin .., hk hu, fun _ _ _ hm => ?_, fun _ _ _ => ?_, nofun⟩
        · exact absurd hm List.not_mem_nil
        · exact Dict.empty_within _
      · exact absurd ht (hu j t hj)
    · obtain ⟨j, t, e, hj, ht, -, -⟩ := hr.jeopardy
      exact absurd ht (hu j t hj)
  · -- there is another session of the client
    refine fair_of_not_lone fun hl => hu fun j t hj ht => ?_
    have hlt := (Array.getElem?_eq_some_iff.1 hj).1
    have hold : (c.born id s).clients[j]? = some t := by rw [hget, if_neg (by omega), hj]
    have hnew := (hget c.clients.size).trans (if_pos rfl)
    have := hl j c.clients.size t _ hold hnew ht hs
    omega

theorem fair_searchOn (h : Safe x c) (ho : Owns x c) (id : Nat) (name : Option String)
    {next : Search.Next}
    (hf : ∀ s, next = .found s → s.config.client = x → c.Unborn x → c.Knows x s.current) :
    Fair x c (c.searchOn id name next) := by
  by_cases hx : ∃ s, next = .found s ∧ s.config.client = x
  · obtain ⟨s, rfl, hx⟩ := hx
    exact (fair_born h id hx (hf s rfl hx)).calm (calm_found c id name s) h.kept
  · refine (calm_searchOn c id name fun s hs e => hx ?_).fair h.kept ho
    exact ⟨s, hs, e⟩

/-! ## Answers -/

theorem own_upkeepAnswer (h : Own x c s out) {ask : Ask} (hask : ∀ i, ask ≠ .lock i)
    (r : Except Error Response)
    (hb : s.phase ≠ .expired → ask = .probe → ∀ a t rest k, s.probe = .asking a t rest →
      ClientSession.grant? r = some k → c.Backed x a s.held) :
    Own x c (s.answer ask r c.now).1 (out ++ sentOf (s.answer ask r c.now).2) := by
  have ha : s.Aside (s.answer ask r c.now) := ClientSession.aside_answer hask r
  have hu := ClientSession.upkeep_answer (s := s) hask r c.now
  obtain ⟨hs, hp, hf⟩ := ClientSession.answer_eq (s := s) hask r c.now
  refine ⟨ClientSession.booked_upkeepAnswer h.booked hask r, ?_⟩
  refine ⟨hs ▸ h.served.knows, fun g a q hm => ?_, fun hne => ?_, fun hne a k st hk he => ?_⟩
  · rcases List.mem_append.1 hm with hm | hm
    · exact h.served.told g a q hm
    · rcases hu _ hm with ⟨g', e⟩ | ⟨b, e⟩ <;> cases e
      exact hs ▸ h.served.knows
  · rw [hs, ha.held]
    exact h.served.lists (hp ▸ hne)
  · rw [ha.held]
    rcases hf with hf | ⟨rfl, b, t, rest, k', hask', hk', hf⟩
    · exact h.served.found (hp ▸ hne) a k st (hf ▸ hk) he
    · rw [hk] at hf
      cases hf
      exact hb (hp ▸ hne) rfl a st rest k hask' (ClientSession.grant?_eq_some_iff.2 ⟨hk', he⟩)

/-- A lock request that is answered is not out any more. -/
theorem not_mem_locksOf_dropFlight {t : Errand} (ht : t ∈ c.errands) {id : Nat}
    (hc : t.caller = .session i (.lock id)) (ho : (locksOf (c.out i)).Nodup) :
    id ∉ locksOf ((c.dropFlight t.id).out i) := by
  obtain ⟨l, m, hout, hsub⟩ := out_dropFlight ht hc
  intro hm
  have hm : id ∈ locksOf (l ++ m) := (hsub.filterMap _).mem hm
  rw [hout, locksOf_append] at ho
  rw [locksOf_append] at hm
  have he : locksOf ((Ask.lock id, t.addr, t.request) :: m) = id :: locksOf m := rfl
  rw [he, List.nodup_append] at ho
  obtain ⟨-, hm', hne⟩ := ho
  rcases List.mem_append.1 hm with hm | hm
  · exact hne id hm id List.mem_cons_self rfl
  · exact (List.nodup_cons.1 hm').1 hm

/-- A request comes to its end: a lock call of the client to an error, and a yes to its claims
is backed. -/
theorem fair_deliver (h : Safe x c) (ho : Owns x c) {f : Flight} (hf : f.errand ∈ c.errands)
    {d : Delivery} (hb : c.Backs x f.addr f.request (outcomeOf f d))
    (hl : ∀ i id s, f.caller = .session i (.lock id) → c.clients[i]? = some s → s.client = x →
      ∃ e, outcomeOf f d = .error e)
    (hp : ∀ i s, f.caller = .session i .probe → c.clients[i]? = some s → s.client = x →
      s.phase ≠ .expired → ∀ a t rest k, s.probe = .asking a t rest →
      ClientSession.grant? (outcomeOf f d) = some k → c.Backed x a s.held) :
    Fair x c (c.deliver f d) := by
  have hfade := fades_dropFlight (W := fun _ => False) c f.id
  have hd : Calm x c (c.dropFlight f.id) := calm_dropFlight c f.id
  have h₁ : Safe x (c.dropFlight f.id) := h.fade hfade
  have ho₁ : Owns x (c.dropFlight f.id) := ho.calm hd h.kept
  unfold Cell.deliver
  dsimp only
  refine hd.trans_fair ?_
  split
  · exact (calm_finish _ _ _).fair h₁.kept ho₁
  · rename_i id hcl
    split
    · rename_i r hfind
      obtain rfl : r.id = id := by simpa using List.find?_some hfind
      have hr := hfade.searches r (List.mem_of_find?_eq_some hfind)
      refine fair_searchOn h₁ ho₁ r.id r.name fun s hs hx hu => ?_
      obtain ⟨rfl, y, hy⟩ := answered_eq_found hs
      have stay : Stay c (c.dropFlight f.id) := stay_of_eq hfade.clients
      obtain ⟨ha, hreq⟩ := h.seeks.searched (stay.unborn hu) r hr hx f.errand hf hcl
      have ha : f.addr = r.search.current := ha
      rw [← ha]
      exact hd.knows _ (Owed.knows (owed_iff.1 (hb.1 y hreq hy c.now (Nat.le_refl _))))
    · exact (Calm.refl _).fair h₁.kept ho₁
  · rename_i i ask hcl
    split
    · rename_i s hi
      have hi' : c.clients[i]? = some s := hfade.clients ▸ hi
      show Fair x (c.dropFlight f.id) ((c.dropFlight f.id).setClient i
        (s.answer ask (outcomeOf f d) (c.dropFlight f.id).now))
      refine fair_setClient h₁.kept ho₁ hi (ClientSession.client_answer ..) fun hlone hx how => ?_
      have hbooked := (ho (hd.lone hlone) i s hi' hx).booked
      by_cases hask : ∃ id, ask = .lock id
      · obtain ⟨id, rfl⟩ := hask
        obtain ⟨e, he⟩ := hl i id s hcl hi' hx
        have hid := not_mem_locksOf_dropFlight hf hcl hbooked.once
        obtain ⟨cs, hcs, hbk, hn⟩ := ClientSession.booked_lockAnswer_error how.booked hid e
          (c.dropFlight f.id).now
        rw [he]
        simp only [ClientSession.answer]
        refine how.quiet ⟨hbk, hn⟩ ?_ (Or.inl ?_) ?_ ?_ <;> rw [hcs]
      · have hask : ∀ id, ask ≠ .lock id := fun id e => hask ⟨id, e⟩
        refine ⟨own_upkeepAnswer how hask _ fun hne e a t rest k hpr hk => ?_, fun hj ha => ?_⟩
        · subst e
          exact (hp i s hcl hi' hx hne a t rest k hpr hk).calm hd h.kept
        · obtain ⟨e, hj⟩ := hj
          cases hj.symm.trans ((ClientSession.phase_answer ..).symm.trans ha)
    · exact (Calm.refl _).fair h₁.kept ho₁
  · refine Calm.fair (.trans ?_ (calm_event _ _ _)) h₁.kept ho₁
    split <;> exact .of_eq rfl rfl rfl rfl fun _ => .refl _

theorem fair_deliver_error (h : Safe x c) (ho : Owns x c) {f : Flight} (hf : f.errand ∈ c.errands)
    {d : Delivery} (he : ∃ e, outcomeOf f d = .error e) : Fair x c (c.deliver f d) := by
  refine fair_deliver h ho hf (backs_of_error he) (fun _ _ _ _ _ _ => he) ?_
  intro j t _ _ _ _ a st rest k _ hk
  obtain ⟨e, he⟩ := he
  rw [he] at hk
  cases hk

/-- Nobody waits for the request who is a session of the client. -/
theorem fair_deliver_other (h : Safe x c) (ho : Owns x c) {f : Flight} (hf : f.errand ∈ c.errands)
    {d : Delivery} (hb : c.Backs x f.addr f.request (outcomeOf f d))
    (hs : ∀ i ask s, f.caller = .session i ask → c.clients[i]? = some s → s.client ≠ x) :
    Fair x c (c.deliver f d) := by
  refine fair_deliver h ho hf hb (fun i id s hcl hi hx => ?_) fun i s hcl hi hx => ?_
  · exact absurd hx (hs i _ s hcl hi)
  · exact absurd hx (hs i _ s hcl hi)

/-! ## Requests at the servers -/

/-- What the server that works has on its list is as it says, and elsewhere nothing changes. -/
theorem Lists.setServer {i : Nat} {v v' : Server} {k' : Cluster} (h : c.Lists x a d)
    (hv : c.servers[i]? = some v) (hs : v.Lists x d → v'.Lists x e) (hd : e.Within d) :
    (c.setServer i v' k').Lists x a e := by
  intro f hf
  obtain ⟨w, hw, hl⟩ := listed?_eq_some_iff.1 hf
  rcases serverAt?_setServer hv v' k' a with ⟨ha, ha'⟩ | ha'
  · rw [ha'] at hw
    obtain rfl := Option.some.inj hw
    exact hs ((lists_iff ha).1 h) f hl
  · exact (h.mono hd) f (listed?_eq_some_iff.2 ⟨w, ha'.symm.trans hw, hl⟩)

theorem Backed.setServer {W : Client → Prop} {i : Nat} {v v' : Server} {k' : Cluster}
    (h : c.Backed x a d) (hk : c.Kept) (hv : c.servers[i]? = some v)
    (hm : Server.Moves W c.now (v, c.cluster) (v', k')) (hw : ¬ W x)
    (hs : v.Lists x d → v'.Lists x e) (hd : e.Within d) : (c.setServer i v' k').Backed x a e := by
  obtain ⟨l, hl, ho⟩ := h.owed
  exact ⟨h.lists.setServer hv hs hd, l, hl, (shifts_setServer hv hm).owed hk hw (Nat.le_refl _) ho⟩

theorem Fair.of_clients (h : Fair x c' c'') (e : c'.clients = c.clients) : Fair x c c'' := by
  refine ⟨h.owns, fun hl s' hr => ?_⟩
  obtain ⟨i, s, t, hi, hx, hj, hi'⟩ := hr.jeopardy
  exact h.resumes hl s' ⟨hr.client, ⟨i, s, t, e ▸ hi, hx, hj, hi'⟩, hr.active⟩

end Cell

end LockCell
