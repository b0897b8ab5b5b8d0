import LockCell.Proofs.Client.Resends

/-
  LockCell.Proofs.Client.Outstanding — what a client session awaits, and what may come of
  keep-alives that it does not await any more.

  A keep-alive that has been given up may be answered after all: its task may have had the
  answer when it was stopped. So a course of things has, besides the session's own events,
  the late answers to keep-alives that were sent and are neither awaited nor heard
  (`Missed`).

  `Awaits` lists all that a step can make of the keep-alives that are awaited: it goes on with
  them, gives them up, or begins the next generation. So no others are awaited than those of
  the present generation, and none while the session does not renew its lease; whatever comes
  late is of an earlier generation, or comes while the session looks for a master
  (`Accounted`). The counts follow (`Accounted.plain_le`).
-/

namespace LockCell

@[simp] theorem cancelsOf_nil : cancelsOf [] = [] := rfl

@[simp] theorem cancelsOf_send (ask : Ask) (a : Addr) (q : Request) (l : List Effect) :
    cancelsOf (.send ask a q :: l) = cancelsOf l := rfl

@[simp] theorem cancelsOf_cancel (ask : Ask) (l : List Effect) :
    cancelsOf (.cancel ask :: l) = ask :: cancelsOf l := rfl

@[simp] theorem cancelsOf_finish (id : Nat) (r : Except Error Response) (l : List Effect) :
    cancelsOf (.finish id r :: l) = cancelsOf l := rfl

namespace ClientSession

variable {s s' : ClientSession} {now : Nat} {out : List Sent} {x : Step}

/-- All that a step can make of the keep-alives that are awaited. -/
inductive Awaits (s : ClientSession) (now : Nat) : Step → Prop
  | goesOn {x : Step} : x.1.watch = s.watch → x.1.generation = s.generation →
      (∀ k, .keepAlive k ∉ cancelsOf x.2) →
      (∀ z ∈ sentOf x.2, ∀ k, z.1 = .keepAlive k → s.watch = .renewing ∧ k = s.generation) →
      Awaits s now x
  /-- The one that is out is given up, unless its answer is what ends the watch. -/
  | stops {x : Step} : s.watch ≠ .over → x.1.watch ≠ .renewing →
      x.1.generation = s.generation → Silent (sentOf x.2) →
      (s.watch = .renewing → s.inFlight = true →
        .keepAlive s.generation ∈ cancelsOf x.2 ∨ ∃ r, (s.generation, r) ∈ s.inbox) →
      Awaits s now x
  | recovers {a : Addr} {k : KeepAlive} {t : Nat} : s.watch = .searching →
      Awaits s now (s.recover a k t now)

/-- A step that has nothing to do with keep-alives. -/
theorem awaits_aside (hw : x.1.watch = s.watch) (hg : x.1.generation = s.generation)
    (hc : ∀ k, .keepAlive k ∉ cancelsOf x.2) (hs : Silent (sentOf x.2)) : s.Awaits now x :=
  .goesOn hw hg hc fun z hz k hk => absurd hk (hs z hz k)

theorem awaits_renew (hr : s.watch = .renewing) (hw : s'.watch = s.watch)
    (hg : s'.generation = s.generation) : s.Awaits now (s'.renew now) := by
  unfold renew
  split
  · refine .goesOn hw hg (by simp) fun z hz k hk => ?_
    obtain rfl := List.mem_singleton.1 hz
    cases hk
    exact ⟨hr, hg⟩
  · exact awaits_aside hw hg (by simp) silent_nil

theorem awaits_endWatch (h : s.watch ≠ .over) : s.Awaits now s.endWatch := by
  refine .stops h nofun rfl (by rw [sentOf_endWatch]; exact silent_nil) fun hw hf => Or.inl ?_
  simp [endWatch, hw, hf]

theorem awaits_take {g : Nat} {r : Except Error KeepAlive}
    {rest : List (Nat × Except Error KeepAlive)} (hw : s.watch = .renewing)
    (hi : s.inbox = (g, r) :: rest) : s.Awaits now ({ s with inbox := rest }.take g r now) := by
  unfold ClientSession.take
  split
  case isTrue hg => exact awaits_renew hw rfl rfl
  case isFalse hg =>
    obtain rfl : g = s.generation := Decidable.not_not.1 hg
    have hmem : (s.generation, r) ∈ s.inbox := hi ▸ List.mem_cons_self
    dsimp only
    split
    · split
      · exact .stops (by simp [hw]) nofun rfl (by rw [sentOf_endWatch]; exact silent_nil)
          fun _ _ => Or.inr ⟨_, hmem⟩
      · exact awaits_renew hw rfl rfl
    · split <;> exact awaits_renew hw rfl rfl

theorem awaits_ask (s : ClientSession) (now : Nat) (l : List Addr) :
    s.Awaits now (s.ask now l) := by
  refine awaits_aside ?_ ?_ ?_ (silent_ask s now l) <;> cases l <;> simp [ask]

theorem awaits_watchStep? (hx : s.watchStep? now = some x) : s.Awaits now x := by
  have expires : s.watch = .searching → s.Awaits now s.expire.endWatch := fun hw =>
    .stops (by simp [hw]) nofun rfl (by rw [sentOf_endWatch]; exact silent_nil)
      fun hr => by cases hw.symm.trans hr
  cases WatchStep.of_watchStep? hx with
  | ends _ hw => exact awaits_endWatch hw
  | hears _ hw hi => exact awaits_take hw hi
  | falls _ hw =>
    refine .stops (by simp [hw]) nofun rfl (by rw [sentOf_fallInJeopardy]; exact silent_nil)
      fun _ hf => Or.inl ?_
    simp [fallInJeopardy, hf]
  | renews _ hw => exact awaits_renew hw rfl rfl
  | refused _ hw | runsOut _ hw => exact expires hw
  | recovers _ hw => exact .recovers hw
  | asks => exact awaits_ask s now _

theorem awaits_step? (hx : s.step? now = some x) : s.Awaits now x := by
  rcases step?_cases hx with hx | ⟨-, c, -, hx⟩
  · exact awaits_watchStep? hx
  · cases CallStep.of_callStep? hx with
    | returns | goes | fails => exact awaits_aside rfl rfl (by simp) (by simp [Silent])

theorem awaits_answer (s : ClientSession) (ask : Ask) (r : Except Error Response) (now : Nat) :
    s.Awaits now (s.answer ask r now) := by
  cases ask with
  | keepAlive k => exact awaits_aside rfl rfl (by simp [answer]) silent_nil
  | probe =>
    show s.Awaits now (s.probeAnswer (keptOf r) now)
    unfold probeAnswer
    split
    · split
      · exact awaits_aside rfl rfl (by simp) silent_nil
      · exact awaits_ask s now _
    · exact awaits_aside rfl rfl (by simp) silent_nil
  | lock id =>
    show s.Awaits now (s.lockAnswer id r now)
    unfold lockAnswer record
    repeat' split
    all_goals exact awaits_aside rfl rfl (by simp) silent_nil

theorem awaits_made? {e : Career.Event} (hx : e.made? s now = some x) : s.Awaits now x := by
  cases e with
  | goOn => exact awaits_step? hx
  | answer z r =>
    cases hx
    exact awaits_answer s z.2.1 r now
  | call id op =>
    cases hx
    unfold call
    split <;> exact awaits_aside rfl rfl (by simp) silent_nil
  | abandon id =>
    cases hx
    unfold abandon
    split <;> exact awaits_aside rfl rfl (by simp) silent_nil
  | close =>
    cases hx
    exact awaits_aside rfl rfl (by simp) silent_nil
  | pass => cases hx

/-- The first keep-alive of a generation is the only one. -/
theorem lone_recover (ht : s.Tidy now out) (a : Addr) (k : KeepAlive) (t : Nat) :
    (s.recover a k t now).1.Lone (out ++ sentOf (s.recover a k t now).2) :=
  Lone.renew (ht.lone_of_recovers rfl rfl rfl)

/-- One that is out is the only one. -/
theorem Lone.of_mem (h : s.Lone out) (hw : s.watch ≠ .over) {z : Sent} (hz : z ∈ out)
    (hk : z.1 = .keepAlive s.generation) :
    s.inFlight = true ∧ ∀ r, (s.generation, r) ∉ s.inbox := by
  have hpos : 0 < out.countP (·.1 = .keepAlive s.generation) :=
    List.countP_pos_iff.2 ⟨z, hz, decide_eq_true hk⟩
  have hc := h.count hw
  unfold renewals at hc
  split at hc
  · rename_i hf
    refine ⟨hf, fun r hr => ?_⟩
    have : 0 < s.inbox.countP (·.1 = s.generation) :=
      List.countP_pos_iff.2 ⟨_, hr, decide_eq_true rfl⟩
    omega
  · omega

end ClientSession

/-- It is a plain keep-alive. -/
def Ask.plain : Ask → Bool
  | .keepAlive _ => true
  | .probe | .lock _ => false

theorem Ask.plain_iff {a : Ask} : a.plain = true ↔ ∃ k, a = .keepAlive k := by
  cases a <;> simp [plain]

namespace Career

variable {g : Nat} {f : LeaseConfig} {x x' y : Career} {e : Event} {st : ClientSession.Step}
  {z : Nat × Sent} {r : Except Error Response}

/-- A keep-alive was sent and is neither awaited nor heard. -/
def Missed (x : Career) (z : Nat × Sent) : Prop :=
  z.2.1.plain = true ∧ x.out.count z + (x.heard.map Prod.fst).count z < x.sent.count z

instance (x : Career) (z : Nat × Sent) : Decidable (x.Missed z) :=
  inferInstanceAs (Decidable (_ ∧ _))

/-- What can come. -/
inductive Turn where
  | own (e : Event)
  /-- A keep-alive that is not awaited any more is answered. -/
  | late (z : Nat × Sent) (r : Except Error Response)

def turn? (g : Nat) (x : Career) : Turn → Option Career
  | .own e => x.step? g e
  | .late z r =>
    if x.Missed z then
      some { x with session := (x.session.answer z.2.1 r x.now).1, heard := x.heard ++ [(z, r)] }
    else none

def course? (g : Nat) (x : Career) (ts : List Turn) : Option Career := ts.foldlM (turn? g) x

/-! ## What is awaited -/

/-- The plain keep-alives that the session awaits, that it has sent, and that it has heard of. -/
structure Accounted (x : Career) : Prop where
  lone : x.session.watch = .renewing → x.session.Lone x.asks
  awaited : ∀ z ∈ x.out, ∀ k, z.2.1 = .keepAlive k →
    x.session.watch = .renewing ∧ k = x.session.generation
  sent_le : ∀ z ∈ x.sent, ∀ k, z.2.1 = .keepAlive k → k ≤ x.session.generation
  /-- None of the present generation is given up while the lease is renewed. -/
  kept : ∀ z, x.session.watch = .renewing → z.2.1 = .keepAlive x.session.generation →
    x.sent.count z ≤ x.out.count z + (x.heard.map Prod.fst).count z

/-- Hearing an answer leaves as many requests awaited or heard. -/
theorem count_hear? (hh : x.hear? e = some x') (z : Nat × Sent) :
    x'.out.count z + (x'.heard.map Prod.fst).count z =
      x.out.count z + (x.heard.map Prod.fst).count z := by
  cases e with
  | answer w r =>
    obtain ⟨hw, hh⟩ := Option.ite_none_right_eq_some.1 hh
    cases hh
    have hp := (List.perm_cons_erase hw).count_eq z
    rw [List.count_cons] at hp
    simp only [List.map_append, List.map_cons, List.map_nil, List.count_append,
      List.count_singleton]
    omega
  | goOn | call | abandon | close | pass =>
    cases hh
    rfl

theorem mem_out_take (hz : z ∈ (x.take st).out) :
    (z ∈ x.out ∧ z.2.1 ∉ cancelsOf st.2) ∨ z.2 ∈ sentOf st.2 := by
  rcases List.mem_append.1 hz with hz | hz
  · exact Or.inl (by simpa using List.mem_filter.1 hz)
  · obtain ⟨w, hw, rfl⟩ := List.mem_map.1 hz
    exact Or.inr hw

theorem mem_sent_take (hz : z ∈ (x.take st).sent) : z ∈ x.sent ∨ z.2 ∈ sentOf st.2 := by
  refine (List.mem_append.1 hz).imp_right fun hz => ?_
  obtain ⟨w, hw, rfl⟩ := List.mem_map.1 hz
  exact hw

/-- What is not given up by a step is kept. -/
theorem count_take (h : z.2.1 ∉ cancelsOf st.2)
    (hle : x.sent.count z ≤ x.out.count z + (x.heard.map Prod.fst).count z) :
    (x.take st).sent.count z ≤
      (x.take st).out.count z + ((x.take st).heard.map Prod.fst).count z := by
  simp only [take, List.count_append]
  rw [List.count_filter (by simpa using h)]
  omega

/-- A session that is taken over begins a generation of which nothing was sent before. -/
theorem Accounted.recover (ho : x.Orderly g f) (h : x.Accounted) (hh : x.Hears e x')
    (hw : x.session.watch = .searching) (a : Addr) (k : KeepAlive) (t : Nat) :
    (x'.take (x.session.recover a k t x.now)).Accounted := by
  have hsent : ∀ z ∈ x'.sent, ∀ j, z.2.1 = .keepAlive j → j ≤ x.session.generation := by
    rw [hh.sent]
    exact h.sent_le
  have hl := (ClientSession.lone_recover (hh.tidy ho) a k t).mono (asks_take x' _).subperm
  rw [ClientSession.recover_eq] at hl ⊢
  refine ⟨fun _ => hl, fun z hz j hj => ?_, fun z hz j hj => ?_, fun z _ hz => ?_⟩
  · rcases mem_out_take hz with ⟨hz, -⟩ | hz
    · cases hw.symm.trans (h.awaited z (hh.out.mem hz) j hj).1
    · simp only [sentOf_send, sentOf_nil, List.mem_singleton] at hz
      rw [hz] at hj
      cases hj
      exact ⟨rfl, rfl⟩
  · rcases mem_sent_take hz with hz | hz
    · exact Nat.le_succ_of_le (hsent z hz j hj)
    · simp only [sentOf_send, sentOf_nil, List.mem_singleton] at hz
      rw [hz] at hj
      cases hj
      exact Nat.le_refl _
  · have hnew : z ∉ x'.sent := fun hm => by
      have := hsent z hm _ hz
      simp only [take] at this
      omega
    refine count_take (by simp) ?_
    rw [List.count_eq_zero_of_not_mem hnew]
    exact Nat.zero_le _

theorem Accounted.step (ho : x.Orderly g f) (h : x.Accounted) (hs : x.step? g e = some y) :
    y.Accounted := by
  obtain ⟨n, -, -, -, rfl⟩ | ⟨st, x', hst, hx', rfl⟩ := made_cases hs
  · exact ⟨h.lone, h.awaited, h.sent_le, h.kept⟩
  have hh := hears_of_hear? hx'
  have ha := ClientSession.awaits_made? hst
  have hlone : x.session.watch = .renewing → st.1.Lone (x'.take st).asks := fun hw =>
    lone_step ho (h.lone hw) hs
  have hold : ∀ z ∈ x'.out, ∀ k, z.2.1 = .keepAlive k →
      x.session.watch = .renewing ∧ k = x.session.generation :=
    fun z hz => h.awaited z (hh.out.mem hz)
  have hsent : ∀ z ∈ x'.sent, ∀ k, z.2.1 = .keepAlive k → k ≤ x.session.generation := by
    rw [hh.sent]
    exact h.sent_le
  have hkept : ∀ z, x.session.watch = .renewing → z.2.1 = .keepAlive x.session.generation →
      x'.sent.count z ≤ x'.out.count z + (x'.heard.map Prod.fst).count z := by
    intro z hw hz
    rw [hh.sent, count_hear? hx']
    exact h.kept z hw hz
  cases ha with
  | goesOn hw hg hc hm =>
    refine ⟨fun hy => hlone (hw ▸ hy), fun z hz k hk => ?_, fun z hz k hk => ?_, fun z hy hz => ?_⟩
    · show st.1.watch = _ ∧ k = st.1.generation
      rw [hw, hg]
      exact (mem_out_take hz).elim (fun hz => hold z hz.1 k hk) fun hz => hm _ hz k hk
    · show k ≤ st.1.generation
      rw [hg]
      exact (mem_sent_take hz).elim (fun hz => hsent z hz k hk)
        fun hz => Nat.le_of_eq (hm _ hz k hk).2
    · replace hz : z.2.1 = .keepAlive st.1.generation := hz
      refine count_take (hz ▸ hc _) (hkept z (hw ▸ hy) ?_)
      rw [hz, hg]
  | stops _ hw hg hm hstop =>
    refine ⟨fun hy => absurd hy hw, fun z hz k hk => ?_, fun z hz k hk => ?_,
      fun z hy => absurd hy hw⟩
    · rcases mem_out_take hz with ⟨hz, hc⟩ | hz
      · -- it was the one that is out, and it was not given up
        obtain ⟨hr, rfl⟩ := hold z hz k hk
        have hz : z.2 ∈ x.asks := List.mem_map_of_mem (hh.out.mem hz)
        obtain ⟨hf, hi⟩ := (h.lone hr).of_mem (by simp [hr]) hz hk
        rcases hstop hr hf with hcan | ⟨r, hin⟩
        · exact absurd (hk ▸ hcan) hc
        · exact absurd hin (hi r)
      · exact absurd hk (hm _ hz k)
    · show k ≤ st.1.generation
      rw [hg]
      exact (mem_sent_take hz).elim (fun hz => hsent z hz k hk) fun hz => absurd hk (hm _ hz k)
  | recovers hw => exact h.recover ho hh hw _ _ _

/-! ## Late answers -/

/-- What comes late is of an earlier generation, or the session does not renew its lease. -/
theorem Accounted.stale (h : x.Accounted) (hm : x.Missed z) :
    ∃ k, z.2.1 = .keepAlive k ∧ k ≤ x.session.generation ∧
      (x.session.watch = .renewing → k < x.session.generation) := by
  obtain ⟨hp, hlt⟩ := hm
  obtain ⟨k, hk⟩ := Ask.plain_iff.1 hp
  have hz : z ∈ x.sent := List.count_pos_iff.1 (Nat.zero_lt_of_lt hlt)
  have hle := h.sent_le z hz k hk
  refine ⟨k, hk, hle, fun hw => Nat.lt_of_le_of_ne hle ?_⟩
  rintro rfl
  exact absurd (h.kept z hw hk) (Nat.not_le.2 hlt)

/-- A late answer goes to the inbox. -/
theorem turn?_late (h : x.turn? g (.late z r) = some y) :
    x.Missed z ∧ ∃ k, z.2.1 = .keepAlive k ∧ y = { x with
      session := { x.session with inbox := x.session.inbox ++ [(k, ClientSession.keptOf r)] }
      heard := x.heard ++ [(z, r)] } := by
  obtain ⟨hm, h⟩ := Option.ite_none_right_eq_some.1 h
  obtain ⟨k, hk⟩ := Ask.plain_iff.1 hm.1
  cases h
  exact ⟨hm, k, hk, by rw [hk]; rfl⟩

theorem Orderly.late (ho : x.Orderly g f) (h : x.Accounted) (hs : x.turn? g (.late z r) = some y) :
    y.Orderly g f := by
  obtain ⟨hm, k, hk, rfl⟩ := turn?_late hs
  obtain ⟨j, hj, hle, -⟩ := h.stale hm
  obtain rfl : k = j := Ask.keepAlive.inj (hk.symm.trans hj)
  have ht := ClientSession.tidy_keepAlive ho.tidy hle r
  rw [show sentOf _ = [] from rfl, List.append_nil] at ht
  refine ⟨ht, ho.config, ho.now_dvd, ho.sent_le, fun n l hl => ?_, ho.asked, ho.since,
    fun a l t hp hf => ?_, ho.grace, ho.ended⟩
  · rcases List.mem_append.1 hl with hl | hl
    · obtain ⟨t, a, q, hq⟩ := ho.told n l hl
      exact ⟨t, a, q, List.mem_append_left _ hq⟩
    · obtain ⟨rfl, he⟩ := Prod.mk.inj (List.mem_singleton.1 hl)
      obtain ⟨t, ask, a, q⟩ := z
      obtain rfl : ask = .keepAlive n := hk
      rw [ClientSession.keptOf_eq_ok he.symm]
      exact ⟨t, a, q, List.mem_append_right _ List.mem_cons_self⟩
  · obtain ⟨hle, q, hq⟩ := ho.found a l t hp hf
    exact ⟨hle, q, List.mem_append_left _ hq⟩

theorem Accounted.late (h : x.Accounted) (hs : x.turn? g (.late z r) = some y) : y.Accounted := by
  obtain ⟨hm, k, hk, rfl⟩ := turn?_late hs
  obtain ⟨j, hj, -, hlt⟩ := h.stale hm
  obtain rfl : k = j := Ask.keepAlive.inj (hk.symm.trans hj)
  refine ⟨fun hw => ?_, h.awaited, h.sent_le, fun w hw hwk => ?_⟩
  · -- it does not count among those of the present generation
    have hne : ¬ k = x.session.generation := Nat.ne_of_lt (hlt hw)
    have hl := h.lone hw
    refine ⟨fun ho => ?_, hl.next⟩
    have hc := hl.count ho
    simp only [ClientSession.renewals, List.countP_append, List.countP_singleton] at hc ⊢
    simpa [hne, asks] using hc
  · have hle := h.kept w hw hwk
    simp only [List.map_append, List.count_append]
    omega

theorem accounted_turn (ho : x.Orderly g f) (h : x.Accounted) {t : Turn}
    (hs : x.turn? g t = some y) : y.Orderly g f ∧ y.Accounted := by
  cases t with
  | own e => exact ⟨ho.step hs, h.step ho hs⟩
  | late z r => exact ⟨ho.late h hs, h.late hs⟩

/-- How many plain keep-alives are awaited. -/
def plain (x : Career) : Nat := x.out.countP (·.2.1.plain)

/-- How many candidates are being asked. -/
def probes (x : Career) : Nat := x.out.countP (·.2.1 = .probe)

end Career

end LockCell
