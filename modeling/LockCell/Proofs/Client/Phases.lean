import LockCell.Proofs.Client.Lease
import LockCell.Proofs.Session.Deadline

/-
  LockCell.Proofs.Client.Phases — active, in jeopardy, expired.

  A career is one client session under a clock, with what it has sent and heard. Answers may
  say anything, come in any order and at any time after the request, or never; calls and the
  end come at any time too. Only the clock waits: it goes on when the session has nothing to
  do, and not past the first multiple of its unit at or after an alarm that is to come.

  `Fares` lists all that a step can make of the session. What every step keeps (`Orderly`)
  follows by cases on it:
  - a candidate's answer that has been found was heard, and to a question of this search;
  - an answer in the inbox was heard;
  - in jeopardy the deadline is that of the lease and the grace after it, and the clock has
    not passed it, unless it was over when the lease ran out.
  So the phase changes in no other way than `Change` says, and a session that has expired
  asks for nothing at any later instant (`phases`). The grace may be over at once
  (`expires_late`): a reply that comes later than lease and grace together begins a session
  whose lease has run out long ago.
-/

namespace LockCell

/-- It asks for the session to be kept. -/
def Ask.Renews : Ask → Prop
  | .keepAlive _ | .probe => True
  | .lock _ => False

/-- What is not awaited any more. -/
def cancelsOf (l : List Effect) : List Ask :=
  l.filterMap fun
    | .cancel a => some a
    | .send .. | .finish .. => none

/-- A client session under a clock. -/
structure Career where
  session : ClientSession
  now : Nat
  /-- What it awaits an answer to, and since when. -/
  out : List (Nat × Sent) := []
  /-- All that it has sent, and when. -/
  sent : List (Nat × Sent) := []
  /-- What has been answered, and how. -/
  heard : List ((Nat × Sent) × Except Error Response) := []
  /-- When its lease last ran out. -/
  fell : Nat := 0

namespace Career

inductive Event where
  | goOn
  | answer (z : Nat × Sent) (r : Except Error Response)
  | call (id : Nat) (op : LockOp)
  | abandon (id : Nat)
  | close
  /-- The clock goes on by so many units. -/
  | pass (units : Nat)

def start (cfg : ClientConfig) (a : Addr) (begun now : Nat) : Career :=
  { session := .begin cfg a begun now, now }

/-- The session has nothing to do. -/
def Settled (x : Career) : Prop := x.session.step? x.now = none

instance (x : Career) : Decidable x.Settled := inferInstanceAs (Decidable (_ = none))

/-- What the session makes of an event. -/
def Event.made? (s : ClientSession) (now : Nat) : Event → Option ClientSession.Step
  | .goOn => s.step? now
  | .answer z r => some (s.answer z.2.1 r now)
  | .call id op => some (s.call id op)
  | .abandon id => some (s.abandon id)
  | .close => some (s.close, [])
  | .pass _ => none

/-- An answer comes to something that is awaited, and then it is not awaited any more. -/
def hear? (x : Career) : Event → Option Career
  | .answer z r =>
    if z ∈ x.out then some { x with out := x.out.erase z, heard := x.heard ++ [(z, r)] } else none
  | _ => some x

/-- The session takes a step. -/
def take (x : Career) (st : ClientSession.Step) : Career where
  session := st.1
  now := x.now
  out := x.out.filter (·.2.1 ∉ cancelsOf st.2) ++ (sentOf st.2).map (x.now, ·)
  sent := x.sent ++ (sentOf st.2).map (x.now, ·)
  heard := x.heard
  fell := match x.session.phase, st.1.phase with
    | .active, .jeopardy _ => x.now
    | _, _ => x.fell

/-- What comes of an event that takes no time. -/
def heed? (x : Career) (e : Event) : Option Career := do
  let st ← e.made? x.session x.now
  let x' ← x.hear? e
  return x'.take st

/-- What comes of an event, or `none` if it is out of turn: the session has nothing to do, the
answer is not awaited, or the clock would pass something. -/
def step? (g : Nat) (x : Career) : Event → Option Career
  | .pass n =>
    if x.Settled ∧ ∀ t ∈ x.session.alarms, t ≤ x.now ∨ x.now + n * g ≤ Clock.ceil g t then
      some { x with now := x.now + n * g }
    else none
  | e => x.heed? e

def run? (g : Nat) (x : Career) (es : List Event) : Option Career := es.foldlM (step? g) x

end Career

namespace ClientSession

variable {s : ClientSession} {now : Nat} {out : List Sent} {x : Step}

/-- What an answer says of the lease it says as it was heard. -/
theorem keptOf_eq_ok {r : Except Error Response} {k : KeepAlive} (h : keptOf r = .ok k) :
    r = .ok (.kept k) := by
  unfold keptOf at h
  split at h
  · cases h
    rfl
  · cases h
  · cases h

/-- All that a step can make of the session. -/
inductive Fares (s : ClientSession) (now : Nat) : Career.Event → Step → Prop
  /-- Phase, lease and search stay as they are. -/
  | aside {e : Career.Event} {h : Dict Mode} {b : Bool} {n : Option Nat}
      {i : List (Nat × Except Error KeepAlive)} {c : List LockCall} {l : List Effect} :
      (∀ z ∈ i, z ∈ s.inbox) → (∀ z ∈ sentOf l, s.phase = .active ∧ z.1 ≠ .probe) →
      Fares s now e ({ s with held := h, inFlight := b, next := n, inbox := i, calls := c }, l)
  | told {t k : Nat} {a : Addr} {q : Option Request} {r : Except Error Response} :
      Fares s now (.answer (t, .keepAlive k, a, q) r)
        ({ s with inbox := s.inbox ++ [(k, keptOf r)] }, [])
  | extended {k : KeepAlive} {b : Bool} {n : Option Nat}
      {i : List (Nat × Except Error KeepAlive)} {l : List Effect} :
      s.phase = .active → (∀ z ∈ i, z ∈ s.inbox) → (∀ z ∈ sentOf l, z.1 ≠ .probe) →
      Fares s now .goOn ({ s with lease := k.lease, inFlight := b, next := n, inbox := i }, l)
  /-- A server says that the session is over. -/
  | refused {k : KeepAlive} {i : List (Nat × Except Error KeepAlive)} {l : List Effect} :
      s.phase ≠ .expired → (∀ z ∈ i, z ∈ s.inbox) →
      ((s.generation, .ok k) ∈ s.inbox ∨ ∃ a t, s.found = some (a, k, t)) → k.expired = true →
      sentOf l = [] →
      Fares s now .goOn ({ s with
        phase := .expired, closed := true, watch := .over, inFlight := false, probe := .idle
        inbox := i }, l)
  | falls {l : List Effect} : s.phase = .active → s.deadline ≤ now → sentOf l = [] →
      Fares s now .goOn ({ s with
        phase := .jeopardy (s.deadline + s.config.jeopardy), watch := .searching, probe := .idle
        found := none }, l)
  | asks {e : Career.Event} (l : List Addr) : s.phase ≠ .active →
      (s.watch = .over → s.probe ≠ .idle) → Fares s now e (s.ask now l)
  | finds {t t' : Nat} {a a' : Addr} {rest : List Addr} {k : KeepAlive} {q : Option Request}
      {r : Except Error Response} : s.probe = .asking a t rest → keptOf r = .ok k →
      Fares s now (.answer (t', .probe, a', q) r)
        ({ s with probe := .idle, found := some (a, k, t) }, [])
  | recovers {d t : Nat} {a : Addr} {k : KeepAlive} : s.phase = .jeopardy d →
      s.found = some (a, k, t) → k.expired = false → Fares s now .goOn (s.recover a k t now)
  /-- The grace is over. -/
  | runsOut {d : Nat} {l : List Effect} : s.phase = .jeopardy d → d ≤ now → sentOf l = [] →
      Fares s now .goOn ({ s with
        phase := .expired, closed := true, watch := .over, inFlight := false
        probe := .idle }, l)
  | ends {l : List Effect} : s.phase = .expired → sentOf l = [] →
      Fares s now .goOn ({ s with watch := .over, inFlight := false, probe := .idle }, l)
  | closes : Fares s now .close (s.close, [])

/-- All that sending the next keep-alive can come to. -/
theorem renew_eq (s : ClientSession) (now : Nat) :
    ∃ b n l, s.renew now = ({ s with inFlight := b, next := n }, l) ∧
      ∀ z ∈ sentOf l, z.1 ≠ .probe := by
  unfold renew
  split
  · refine ⟨true, none, _, rfl, ?_⟩
    simp
  · refine ⟨s.inFlight, s.next, [], rfl, ?_⟩
    simp

theorem recover_eq (s : ClientSession) (a : Addr) (k : KeepAlive) (t now : Nat) :
    s.recover a k t now =
      ({ s with
          start := t, lease := k.lease, server := a, phase := .active, watch := .renewing
          probe := .idle, found := none, generation := s.generation + 1, inFlight := true
          next := none },
        [.send (.keepAlive (s.generation + 1)) a (.keepAlive s.client none)]) := by
  simp [recover, renew]

theorem fares_take (hp : s.phase = .active) {g : Nat} {r : Except Error KeepAlive}
    {rest : List (Nat × Except Error KeepAlive)} (hi : s.inbox = (g, r) :: rest) :
    s.Fares now .goOn ({ s with inbox := rest }.take g r now) := by
  have hrest : ∀ z ∈ rest, z ∈ s.inbox := fun z hz => hi ▸ List.mem_cons_of_mem _ hz
  have renewed : ∀ (b : Bool) (n : Option Nat),
      s.Fares now .goOn ({ s with inbox := rest, inFlight := b, next := n }.renew now) := by
    intro b n
    obtain ⟨b', n', l, he, hl⟩ := renew_eq { s with inbox := rest, inFlight := b, next := n } now
    rw [he]
    exact .aside hrest fun z hz => ⟨hp, hl z hz⟩
  unfold ClientSession.take
  split
  · exact renewed s.inFlight s.next
  · rename_i hg
    have hg : g = s.generation := by simpa using hg
    cases r with
    | ok k =>
      dsimp only
      split
      · rename_i he
        refine .refused (by simp [hp]) hrest (Or.inl ?_) he (sentOf_endWatch _)
        rw [hi, hg]
        exact List.mem_cons_self
      · obtain ⟨b, n, l, he, hl⟩ :=
          renew_eq { s with inbox := rest, inFlight := false, lease := k.lease, next := some now } now
        rw [he]
        exact .extended hp hrest hl
    | error e =>
      dsimp only
      split
      · exact renewed false _
      · exact renewed false s.next

theorem fares_watchStep? (h : s.Tidy now out) (hx : s.watchStep? now = some x) :
    s.Fares now .goOn x := by
  cases WatchStep.of_watchStep? hx with
  | ends hc => exact .ends (h.closedIff.1 hc) (sentOf_endWatch s)
  | hears hc hw hi => exact fares_take (h.active_of_renewing hw hc) hi
  | falls hc hw hd => exact .falls (h.active_of_renewing hw hc) hd (sentOf_fallInJeopardy s)
  | renews hc hw =>
    have hp := h.active_of_renewing hw hc
    obtain ⟨b, n, l, he, hl⟩ := renew_eq s now
    rw [he]
    exact .aside (fun z hz => hz) fun z hz => ⟨hp, hl z hz⟩
  | @refused a k t hc hw hf he =>
    obtain ⟨d, hp⟩ := h.jeopardy_of_searching hw hc
    exact .refused (by simp [hp]) (fun z hz => hz) (Or.inr ⟨a, t, hf⟩) he (sentOf_endWatch _)
  | recovers hc hw hf he =>
    obtain ⟨d, hp⟩ := h.jeopardy_of_searching hw hc
    exact .recovers hp hf he
  | runsOut _ _ _ hp hd => exact .runsOut hp hd (sentOf_endWatch _)
  | asks _ hw _ hp =>
    refine .asks _ (by simp [hp]) fun ho => ?_
    cases hw.symm.trans ho

theorem fares_callStep? {c : LockCall} (hx : s.callStep? now c = some x) : s.Fares now .goOn x := by
  cases CallStep.of_callStep? hx with
  | returns | fails => exact .aside (fun z hz => hz) (by simp)
  | goes _ hp => exact .aside (fun z hz => hz) (by simp [hp])

theorem fares_step? (h : s.Tidy now out) (hx : s.step? now = some x) : s.Fares now .goOn x := by
  rcases step?_cases hx with hx | ⟨-, d, -, hx⟩
  · exact fares_watchStep? h hx
  · exact fares_callStep? hx

theorem fares_answer (h : s.Tidy now out) (z : Nat × Sent) (r : Except Error Response) :
    s.Fares now (.answer z r) (s.answer z.2.1 r now) := by
  obtain ⟨t, ask, a, q⟩ := z
  have aside : ∀ (m : Dict Mode) (c : List LockCall) (l : List Effect), sentOf l = [] →
      s.Fares now (.answer (t, ask, a, q) r) ({ s with held := m, calls := c }, l) := by
    intro m c l hl
    refine .aside (fun z hz => hz) ?_
    simp [hl]
  cases ask with
  | keepAlive g => exact .told
  | probe =>
    show s.Fares now _ (s.probeAnswer (keptOf r) now)
    unfold probeAnswer
    split
    · rename_i b u rest hp
      split
      · rename_i k hk
        exact .finds hp hk
      · refine .asks rest (fun ha => ?_) fun _ hi => ?_
        · cases hp.symm.trans (h.active ha).2.1
        · cases hp.symm.trans hi
    · exact aside s.held s.calls [] rfl
  | lock id =>
    show s.Fares now _ (s.lockAnswer id r now)
    unfold lockAnswer
    split
    · exact aside s.held s.calls [] rfl
    · split
      · unfold record
        repeat' split
        all_goals exact aside _ _ _ rfl
      · split <;> exact aside _ _ _ rfl

/-- Whatever comes, the session fares in one of these ways. -/
theorem fares_made? (h : s.Tidy now out) {e : Career.Event} (hx : e.made? s now = some x) :
    s.Fares now e x := by
  cases e with
  | goOn => exact fares_step? h hx
  | answer z r =>
    cases hx
    exact fares_answer h z r
  | call id op =>
    cases hx
    unfold call
    split <;> exact .aside (fun z hz => hz) (by simp)
  | abandon id =>
    cases hx
    refine .aside (fun z hz => hz) ?_
    split <;> simp
  | close =>
    cases hx
    exact .closes
  | pass n => cases hx

/-- A session that has expired stays so and where it is, and sends nothing once its watch is
over. -/
theorem Fares.of_expired {e : Career.Event} (h : s.Fares now e x) (hp : s.phase = .expired) :
    x.1.phase = .expired ∧ x.1.start = s.start ∧ x.1.lease = s.lease ∧ x.1.server = s.server ∧
      (s.watch = .over → s.probe = .idle → x.1.watch = .over ∧ sentOf x.2 = []) := by
  cases h with
  | aside _ hl =>
    refine ⟨hp, rfl, rfl, rfl, fun hw _ => ⟨hw, List.eq_nil_iff_forall_not_mem.2 fun z hz => ?_⟩⟩
    cases hp.symm.trans (hl z hz).1
  | told | closes => exact ⟨by simp [hp, close, expire], rfl, rfl, rfl, fun hw _ => ⟨hw, rfl⟩⟩
  | extended ha | falls ha => cases hp.symm.trans ha
  | refused hn => exact absurd hp hn
  | recovers hj | runsOut hj => cases hp.symm.trans hj
  | ends _ hl => exact ⟨hp, rfl, rfl, rfl, fun _ _ => ⟨rfl, hl⟩⟩
  | finds hb =>
    refine ⟨hp, rfl, rfl, rfl, fun _ hi => ?_⟩
    cases hb.symm.trans hi
  | asks l _ ho =>
    have idle : s.watch = .over → s.probe = .idle → (s.ask now l).1.watch = .over ∧
        sentOf (s.ask now l).2 = [] := fun hw hi => absurd hi (ho hw)
    cases l <;> exact ⟨hp, rfl, rfl, rfl, idle⟩

end ClientSession

namespace Career

variable {g : Nat} {f : LeaseConfig} {x x' y z : Career} {e : Event} {st : ClientSession.Step}

/-- The answer is noted, if it is one, before the session looks at it. -/
structure Hears (x : Career) (e : Event) (x' : Career) : Prop where
  session : x'.session = x.session
  now : x'.now = x.now
  fell : x'.fell = x.fell
  sent : x'.sent = x.sent
  out : x'.out.Sublist x.out
  heard : ∀ w ∈ x.heard, w ∈ x'.heard
  answer : ∀ z r, e = .answer z r → z ∈ x.out ∧ (z, r) ∈ x'.heard ∧ x'.out = x.out.erase z

theorem hears_of_hear? (h : x.hear? e = some x') : x.Hears e x' := by
  cases e with
  | answer z r =>
    obtain ⟨hz, h⟩ := Option.ite_none_right_eq_some.1 h
    cases h
    refine ⟨rfl, rfl, rfl, rfl, List.erase_sublist, fun w hw => List.mem_append_left _ hw, ?_⟩
    intro z' r' he
    cases he
    exact ⟨hz, List.mem_append_right _ List.mem_cons_self, rfl⟩
  | goOn | call | abandon | close | pass =>
    cases h
    refine ⟨rfl, rfl, rfl, rfl, .refl _, fun w hw => hw, ?_⟩
    intro z r he
    cases he

theorem made_cases (h : x.step? g e = some y) :
    (∃ n, e = .pass n ∧ x.Settled ∧
      (∀ t ∈ x.session.alarms, t ≤ x.now ∨ x.now + n * g ≤ Clock.ceil g t) ∧
      y = { x with now := x.now + n * g }) ∨
    ∃ st x', e.made? x.session x.now = some st ∧ x.hear? e = some x' ∧ y = x'.take st := by
  have heeded : x.heed? e = some y →
      ∃ st x', e.made? x.session x.now = some st ∧ x.hear? e = some x' ∧ y = x'.take st := by
    intro h
    obtain ⟨st, hst, h⟩ := Option.bind_eq_some_iff.1 h
    obtain ⟨x', hx', h⟩ := Option.bind_eq_some_iff.1 h
    cases h
    exact ⟨st, x', hst, hx', rfl⟩
  cases e with
  | pass n =>
    simp only [step?] at h
    obtain ⟨⟨hs, ha⟩, h⟩ := Option.ite_none_right_eq_some.1 h
    cases h
    exact Or.inl ⟨n, rfl, hs, ha, rfl⟩
  | goOn | answer | call | abandon | close => exact Or.inr (heeded h)

theorem step_cases (h : x.step? g e = some y) :
    (∃ n, e = .pass n ∧ x.Settled ∧
      (∀ t ∈ x.session.alarms, t ≤ x.now ∨ x.now + n * g ≤ Clock.ceil g t) ∧
      y = { x with now := x.now + n * g }) ∨
    ∃ st x', e.made? x.session x.now = some st ∧ x.Hears e x' ∧ y = x'.take st :=
  (made_cases h).imp_right fun ⟨st, x', hst, hx', hy⟩ => ⟨st, x', hst, hears_of_hear? hx', hy⟩

/-! ## What every step keeps -/

structure Orderly (g : Nat) (f : LeaseConfig) (x : Career) : Prop where
  tidy : x.session.Tidy x.now (x.out.map Prod.snd)
  config : x.session.config = f
  now_dvd : g ∣ x.now
  sent_le : ∀ z ∈ x.sent, z.1 ≤ x.now
  told : ∀ n k, (n, .ok k) ∈ x.session.inbox →
    ∃ t a q, ((t, .keepAlive n, a, q), .ok (.kept k)) ∈ x.heard
  asked : ∀ t a q, x.session.phase ≠ .expired → (t, .probe, a, q) ∈ x.out →
    ∃ rest, x.session.probe = .asking a t rest
  since : ∀ a t rest, x.session.phase ≠ .expired → x.session.probe = .asking a t rest → x.fell ≤ t
  found : ∀ a k t, x.session.phase ≠ .expired → x.session.found = some (a, k, t) →
    x.fell ≤ t ∧ ∃ q, ((t, .probe, a, q), .ok (.kept k)) ∈ x.heard
  grace : ∀ d, x.session.phase = .jeopardy d →
    d = x.session.deadline + f.jeopardy ∧ x.session.deadline ≤ x.now ∧ x.fell ≤ x.now ∧
      (x.now ≤ Clock.ceil g d ∨ x.now = x.fell)
  ended : x.session.watch = .over → x.session.phase = .expired ∧ x.session.probe = .idle

theorem orderly_start (cfg : ClientConfig) (a : Addr) {begun now : Nat} (hb : begun ≤ now)
    (hn : g ∣ now) : (start cfg a begun now).Orderly g cfg.lease where
  tidy := ClientSession.tidy_begin cfg a hb
  config := rfl
  now_dvd := hn
  sent_le z hz := by cases hz
  told n k hm := by cases hm
  asked t b q _ hm := by cases hm
  since b t rest _ hp := by cases hp
  found b k t _ hf := by cases hf
  grace d hd := by cases hd
  ended hw := by cases hw

theorem Hears.tidy (h : x.Orderly g f) (hh : x.Hears e x') :
    x.session.Tidy x.now (x'.out.map Prod.snd) :=
  h.tidy.mono (Nat.le_refl _) (hh.out.map _)

/-- Once the answer to a candidate's question has come no candidate is being asked. -/
theorem Orderly.probesOf_of_answer (h : x.Orderly g f) {t : Nat} {a : Addr} {q : Option Request}
    {r : Except Error Response} (hh : x.Hears (.answer (t, .probe, a, q) r) x')
    (hp : x.session.phase ≠ .expired) : probesOf (x'.out.map Prod.snd) = [] := by
  obtain ⟨hz, -, ho⟩ := hh.answer _ _ rfl
  have hle := (h.tidy.probing hp).length_le
  obtain ⟨rest, hr⟩ := h.asked t a q hp hz
  -- what was out is the question and the rest
  have hperm := ((List.perm_cons_erase hz).map Prod.snd).filterMap
    fun w : Sent => if w.1 = .probe then some w.2.1 else none
  have hlen := hperm.length_eq
  simp only [List.map_cons, List.filterMap_cons, if_true, List.length_cons] at hlen
  rw [hr] at hle
  simp only [Probe.asked, List.length_singleton, probesOf] at hle
  rw [ho, ← List.length_eq_zero_iff]
  simp only [probesOf]
  omega

/-- The session stays in order, and its config. -/
theorem Orderly.keeps (h : x.Orderly g f) (hh : x.Hears e x')
    (hx : e.made? x.session x.now = some st) :
    st.1.Tidy x.now (x'.out.map Prod.snd ++ sentOf st.2) ∧ st.1.config = f := by
  have ht := hh.tidy h
  have of_keeps : x.session.Keeps x.now (x'.out.map Prod.snd) st →
      st.1.Tidy x.now (x'.out.map Prod.snd ++ sentOf st.2) ∧ st.1.config = f :=
    fun hk => ⟨hk.tidy, hk.config.trans h.config⟩
  cases e with
  | goOn => exact of_keeps (ClientSession.keeps_step? ht hx)
  | call id op =>
    cases hx
    exact of_keeps (ClientSession.keeps_call ht id op)
  | abandon id =>
    cases hx
    exact of_keeps (ClientSession.keeps_abandon ht id)
  | close =>
    cases hx
    exact of_keeps (ClientSession.keeps_close ht)
  | pass n => cases hx
  | answer w r =>
    cases hx
    obtain ⟨t, ask, a, q⟩ := w
    cases ask with
    | keepAlive k =>
      have hz : (.keepAlive k, a, q) ∈ x.out.map Prod.snd :=
        List.mem_map.2 ⟨_, (hh.answer _ _ rfl).1, rfl⟩
      exact ⟨ClientSession.tidy_keepAlive ht (h.tidy.keepAlives k a q hz).1 r, h.config⟩
    | probe =>
      exact ⟨ClientSession.tidy_probe ht (fun hp => h.probesOf_of_answer hh hp) r,
        (ClientSession.probe_eq x.session r x.now).2.trans h.config⟩
    | lock id => exact of_keeps (ClientSession.keeps_lockAnswer ht id r)

/-- The lease has not run out now. -/
theorem Hears.fell_take (hh : x.Hears e x')
    (h : st.1.phase = x.session.phase ∨ st.1.phase = .active ∨ st.1.phase = .expired) :
    (x'.take st).fell = x.fell := by
  show (match x'.session.phase, st.1.phase with
    | .active, .jeopardy _ => x'.now
    | _, _ => x'.fell) = x.fell
  rw [hh.session]
  split
  · rename_i hp hq
    rw [hp, hq] at h
    simp at h
  · exact hh.fell

theorem Hears.fell_take_of_active (hh : x.Hears e x') (ha : x.session.phase = .active) {d : Nat}
    (h : st.1.phase = .jeopardy d) : (x'.take st).fell = x.now := by
  simp only [Career.take, hh.session, ha, h]
  exact hh.now

theorem Orderly.told_take (h : x.Orderly g f) (hh : x.Hears e x')
    (hf : x.session.Fares x.now e st) (n : Nat) (k : KeepAlive) (hm : (n, .ok k) ∈ st.1.inbox) :
    ∃ t a q, ((t, .keepAlive n, a, q), .ok (.kept k)) ∈ (x'.take st).heard := by
  have of_mem : (n, .ok k) ∈ x.session.inbox →
      ∃ t a q, ((t, .keepAlive n, a, q), .ok (.kept k)) ∈ x'.heard := by
    intro hm
    obtain ⟨t, a, q, hq⟩ := h.told n k hm
    exact ⟨t, a, q, hh.heard _ hq⟩
  cases hf with
  | aside hi | extended _ hi | refused _ hi => exact of_mem (hi _ hm)
  | told =>
    rcases List.mem_append.1 hm with hm | hm
    · exact of_mem hm
    · obtain ⟨rfl, hk⟩ := Prod.mk.inj (List.mem_singleton.1 hm)
      rw [ClientSession.keptOf_eq_ok hk.symm] at hh
      exact ⟨_, _, _, (hh.answer _ _ rfl).2.1⟩
  | falls | finds | runsOut | ends | closes => exact of_mem hm
  | asks l => cases l <;> exact of_mem hm
  | recovers =>
    rw [ClientSession.recover_eq] at hm
    exact of_mem hm

/-- Whatever is asked of a candidate, it is the question that the session waits for. -/
theorem Orderly.asked_take (h : x.Orderly g f) (hh : x.Hears e x')
    (hf : x.session.Fares x.now e st)
    (ht : st.1.Tidy x.now (x'.out.map Prod.snd ++ sentOf st.2)) (t : Nat) (a : Addr)
    (q : Option Request) (hp : st.1.phase ≠ .expired) (hm : (t, .probe, a, q) ∈ (x'.take st).out) :
    ∃ rest, st.1.probe = .asking a t rest := by
  replace hm : (t, .probe, a, q) ∈ x'.out ∨ t = x.now ∧ (.probe, a, q) ∈ sentOf st.2 := by
    rcases List.mem_append.1 hm with hm | hm
    · exact Or.inl (List.mem_filter.1 hm).1
    · obtain ⟨w, hw, e⟩ := List.mem_map.1 hm
      cases e
      exact Or.inr ⟨hh.now, hw⟩
  have old : x.session.phase ≠ .expired → (t, .probe, a, q) ∈ x'.out →
      ∃ rest, x.session.probe = .asking a t rest := fun hp hm => h.asked t a q hp (hh.out.mem hm)
  have is_asked : st.1.probe.asked ≠ [] := by
    intro hn
    have hs := ht.probing hp
    rw [hn] at hs
    have hmem : (.probe, a, q) ∈ x'.out.map Prod.snd ++ sentOf st.2 := by
      rcases hm with hm | hm
      · exact List.mem_append_left _ (List.mem_map.2 ⟨_, hm, rfl⟩)
      · exact List.mem_append_right _ hm.2
    have ha := mem_probesOf hmem
    rw [List.sublist_nil.1 hs] at ha
    cases ha
  cases hf with
  | aside _ hl =>
    rcases hm with hm | ⟨-, hm⟩
    · exact old hp hm
    · exact absurd rfl (hl _ hm).2
  | extended _ _ hl =>
    rcases hm with hm | ⟨-, hm⟩
    · exact old hp hm
    · exact absurd rfl (hl _ hm)
  | told =>
    rcases hm with hm | ⟨-, hm⟩
    · exact old hp hm
    · cases hm
  | refused | runsOut | closes => exact absurd rfl hp
  | falls | finds | ends => exact absurd rfl is_asked
  | recovers =>
    rw [ClientSession.recover_eq] at is_asked
    exact absurd rfl is_asked
  | asks l =>
    cases l with
    | nil => exact absurd rfl is_asked
    | cons b rest =>
      rcases hm with hm | ⟨rfl, hm⟩
      · -- another would be out besides it
        have hs := (ht.probing hp).length_le
        have hpos : 0 < (probesOf (x'.out.map Prod.snd)).length :=
          List.length_pos_of_mem (mem_probesOf (List.mem_map.2 ⟨_, hm, rfl⟩))
        rw [probesOf_append, List.length_append] at hs
        have hle : (probesOf (x'.out.map Prod.snd)).length + 1 ≤ 1 := hs
        omega
      · simp only [ClientSession.ask, sentOf_send, sentOf_nil, List.mem_singleton,
          Prod.mk.injEq] at hm
        obtain ⟨-, rfl, -⟩ := hm
        exact ⟨rest, rfl⟩

theorem Orderly.since_take (h : x.Orderly g f) (hh : x.Hears e x')
    (hf : x.session.Fares x.now e st) (a : Addr) (t : Nat) (rest : List Addr)
    (hp : st.1.phase ≠ .expired) (hq : st.1.probe = .asking a t rest) :
    (x'.take st).fell ≤ t := by
  cases hf with
  | aside | told | extended =>
    rw [hh.fell_take (Or.inl rfl)]
    exact h.since a t rest hp hq
  | refused | runsOut | closes => exact absurd rfl hp
  | falls | finds | ends => cases hq
  | recovers =>
    rw [ClientSession.recover_eq] at hq
    cases hq
  | asks l hna =>
    cases l with
    | nil => cases hq
    | cons b l =>
      cases hq
      rw [hh.fell_take (Or.inl rfl)]
      cases hj : x.session.phase with
      | active => exact absurd hj hna
      | jeopardy d => exact (h.grace d hj).2.2.1
      | expired => exact absurd hj hp

/-- A candidate's answer that has been found was heard. -/
theorem Orderly.found_take (h : x.Orderly g f) (hh : x.Hears e x')
    (hf : x.session.Fares x.now e st) (a : Addr) (k : KeepAlive) (t : Nat)
    (hp : st.1.phase ≠ .expired) (hq : st.1.found = some (a, k, t)) :
    (x'.take st).fell ≤ t ∧ ∃ q, ((t, .probe, a, q), .ok (.kept k)) ∈ x'.heard := by
  have old : x.session.phase ≠ .expired → x.session.found = some (a, k, t) →
      x.fell ≤ t ∧ ∃ q, ((t, .probe, a, q), .ok (.kept k)) ∈ x'.heard := by
    intro hp hq
    obtain ⟨hle, q, hm⟩ := h.found a k t hp hq
    exact ⟨hle, q, hh.heard _ hm⟩
  cases hf with
  | aside | told | extended =>
    rw [hh.fell_take (Or.inl rfl)]
    exact old hp hq
  | asks l =>
    cases l <;>
    · rw [hh.fell_take (Or.inl rfl)]
      exact old hp hq
  | refused | runsOut | closes => exact absurd rfl hp
  | ends he => exact absurd he hp
  | falls => cases hq
  | recovers =>
    rw [ClientSession.recover_eq] at hq
    cases hq
  | finds hb hk =>
    cases hq
    rw [hh.fell_take (Or.inl rfl)]
    obtain ⟨hz, hr, -⟩ := hh.answer _ _ rfl
    obtain ⟨rest, hb'⟩ := h.asked _ _ _ hp hz
    cases hb.symm.trans hb'
    rw [ClientSession.keptOf_eq_ok hk] at hr
    exact ⟨h.since _ _ _ hp hb, _, hr⟩

theorem Orderly.grace_take (h : x.Orderly g f) (hh : x.Hears e x')
    (hf : x.session.Fares x.now e st) (d : Nat) (hp : st.1.phase = .jeopardy d) :
    d = st.1.deadline + f.jeopardy ∧ st.1.deadline ≤ x.now ∧ (x'.take st).fell ≤ x.now ∧
      (x.now ≤ Clock.ceil g d ∨ x.now = (x'.take st).fell) := by
  cases hf with
  | aside | told | finds =>
    rw [hh.fell_take (Or.inl rfl)]
    exact h.grace d hp
  | asks l =>
    cases l <;>
    · rw [hh.fell_take (Or.inl rfl)]
      exact h.grace d hp
  | extended ha => cases ha.symm.trans hp
  | refused | runsOut | closes => cases hp
  | ends he => cases he.symm.trans hp
  | recovers =>
    rw [ClientSession.recover_eq] at hp
    cases hp
  | falls ha hd =>
    cases hp
    rw [hh.fell_take_of_active ha rfl, ← h.config]
    exact ⟨rfl, hd, Nat.le_refl _, Or.inr rfl⟩

theorem Orderly.over_take (h : x.Orderly g f) (hf : x.session.Fares x.now e st)
    (hw : st.1.watch = .over) : st.1.phase = .expired ∧ st.1.probe = .idle := by
  cases hf with
  | aside | told | extended => exact h.ended hw
  | refused | runsOut => exact ⟨rfl, rfl⟩
  | ends he => exact ⟨he, rfl⟩
  | closes => exact ⟨rfl, (h.ended hw).2⟩
  | falls => cases hw
  | recovers =>
    rw [ClientSession.recover_eq] at hw
    cases hw
  | finds hb =>
    cases hb.symm.trans (h.ended hw).2
  | asks l _ ho =>
    have hw : x.session.watch = .over := by
      cases l <;> exact hw
    exact absurd (h.ended hw).2 (ho hw)

/-! ## When there is nothing to do -/

theorem watchStep?_of_settled (hs : x.Settled) : x.session.watchStep? x.now = none := by
  unfold Settled ClientSession.step? at hs
  simp only [Option.orElse_eq_orElse, Option.orElse_eq_or, Option.or_eq_none_iff] at hs
  exact hs.1

theorem Orderly.lt_of_jeopardy (h : x.Orderly g f) (hs : x.Settled) {d : Nat}
    (hp : x.session.phase = .jeopardy d) : x.now < d := by
  have hw := h.tidy.jeopardy d hp
  have hc : x.session.closed = false := by
    cases hc : x.session.closed with
    | false => rfl
    | true => cases (h.tidy.closedIff.1 hc).symm.trans hp
  have hs := watchStep?_of_settled hs
  unfold ClientSession.watchStep? ClientSession.searchStep? at hs
  simp only [hw, hc, hp, Bool.false_eq_true, if_false] at hs
  split at hs
  · split at hs <;> cases hs
  · rename_i d' _ hd
    cases hd
    split at hs
    · cases hs
    · omega
  · rename_i hn
    exact absurd rfl (hn d)

theorem Orderly.over_of_settled (h : x.Orderly g f) (hs : x.Settled)
    (hp : x.session.phase = .expired) : x.session.watch = .over := by
  have hc := h.tidy.closedIff.2 hp
  have hs := watchStep?_of_settled hs
  unfold ClientSession.watchStep? at hs
  cases hw : x.session.watch with
  | renewing | searching => simp [hw, hc] at hs
  | _ => rfl

theorem Orderly.step (h : x.Orderly g f) (hs : x.step? g e = some y) :
    y.Orderly g f := by
  obtain ⟨n, rfl, hq, ha, rfl⟩ | ⟨st, x', hst, hh, rfl⟩ := step_cases hs
  · have hle : x.now ≤ x.now + n * g := Nat.le_add_right _ _
    refine ⟨h.tidy.mono hle (.refl _), h.config, Nat.dvd_add h.now_dvd (Nat.dvd_mul_left g n),
      fun z hz => Nat.le_trans (h.sent_le z hz) hle, h.told, h.asked, h.since, h.found, ?_, h.ended⟩
    intro d (hp : x.session.phase = .jeopardy d)
    obtain ⟨hd, hdn, hfn, -⟩ := h.grace d hp
    refine ⟨hd, Nat.le_trans hdn hle, Nat.le_trans hfn hle, Or.inl ?_⟩
    have hmem : d ∈ x.session.alarms := by
      simp [ClientSession.alarms, h.tidy.jeopardy d hp, hp]
    exact (ha d hmem).resolve_left (Nat.not_le.2 (h.lt_of_jeopardy hq hp))
  · have hf := ClientSession.fares_made? (hh.tidy h) hst
    obtain ⟨ht, hc⟩ := h.keeps hh hst
    have hn : (x'.take st).now = x.now := hh.now
    refine ⟨?_, hc, ?_, ?_, h.told_take hh hf, h.asked_take hh hf ht, h.since_take hh hf,
      h.found_take hh hf, ?_, h.over_take hf⟩
    · rw [hn]
      refine ht.mono (Nat.le_refl _) ?_
      simp only [Career.take, List.map_append, List.map_map]
      refine (List.filter_sublist.map _).append ?_
      simp [Function.comp_def]
    · rw [hn]
      exact h.now_dvd
    · intro z hz
      rw [hn]
      rcases List.mem_append.1 hz with hz | hz
      · exact h.sent_le z (hh.sent ▸ hz)
      · obtain ⟨w, -, rfl⟩ := List.mem_map.1 hz
        exact Nat.le_of_eq hh.now
    · rw [hn]
      exact h.grace_take hh hf

theorem Orderly.run (h : x.Orderly g f) {es : List Event} (hr : x.run? g es = some y) :
    y.Orderly g f :=
  invariant_of_foldlM (fun _ _ _ h => h.step) h hr

/-! ## How the phase changes -/

/-- All the ways in which an event changes the phase. -/
inductive Change (g : Nat) (x : Career) : Event → Career → Prop
  /-- The lease has run out. -/
  | falls {y : Career} : x.session.phase = .active → x.session.deadline ≤ x.now →
      y.session.phase = .jeopardy (x.session.deadline + x.session.config.jeopardy) →
      Change g x .goOn y
  /-- A candidate that was asked in this search has taken the session; the lease counts from
  when it was asked. -/
  | recovers {y : Career} {d t : Nat} {a : Addr} {q : Option Request} {k : KeepAlive} :
      x.session.phase = .jeopardy d → x.fell ≤ t →
      ((t, .probe, a, q), .ok (.kept k)) ∈ x.heard → k.expired = false →
      y.session.phase = .active → y.session.start = t → y.session.lease = k.lease →
      y.session.server = a → Change g x .goOn y
  | closes {y : Career} : y.session.phase = .expired → Change g x .close y
  /-- A server has said that the session is over. -/
  | refused {y : Career} {t : Nat} {ask : Ask} {a : Addr} {q : Option Request} {k : KeepAlive} :
      ask = .keepAlive x.session.generation ∨ ask = .probe →
      ((t, ask, a, q), .ok (.kept k)) ∈ x.heard → k.expired = true →
      y.session.phase = .expired → Change g x .goOn y
  /-- The grace has come to its end. -/
  | runsOut {y : Career} {d : Nat} : x.session.phase = .jeopardy d → x.now = Clock.ceil g d →
      y.session.phase = .expired → Change g x .goOn y
  /-- The grace was over when the lease ran out, which is now. -/
  | late {y : Career} {d : Nat} : x.session.phase = .jeopardy d → d < x.fell → x.now = x.fell →
      y.session.phase = .expired → Change g x .goOn y

theorem Orderly.change (hg : 0 < g) (h : x.Orderly g f) (hs : x.step? g e = some y)
    (hne : y.session.phase ≠ x.session.phase) : Change g x e y := by
  obtain ⟨n, rfl, -, -, rfl⟩ | ⟨st, x', hst, hh, rfl⟩ := step_cases hs
  · exact absurd rfl hne
  · cases ClientSession.fares_made? (hh.tidy h) hst with
    | aside | told | extended | finds | ends => exact absurd rfl hne
    | asks l =>
      cases l <;> exact absurd rfl hne
    | falls ha hd => exact .falls ha hd rfl
    | closes => exact .closes rfl
    | recovers hp hf hk =>
      obtain ⟨hle, q, hm⟩ := h.found _ _ _ (by simp [hp]) hf
      refine .recovers hp hle hm hk ?_ ?_ ?_ ?_ <;> simp only [Career.take, ClientSession.recover_eq]
    | refused hp _ hk he =>
      rcases hk with hk | ⟨a, t, hk⟩
      · obtain ⟨t, a, q, hm⟩ := h.told _ _ hk
        exact .refused (Or.inl rfl) hm he rfl
      · obtain ⟨-, q, hm⟩ := h.found _ _ _ hp hk
        exact .refused (Or.inr rfl) hm he rfl
    | @runsOut d _ hp hd =>
      obtain ⟨-, -, -, hn⟩ := h.grace d hp
      have hle := Clock.ceil_le hg h.now_dvd hd
      by_cases hc : x.now = Clock.ceil g d
      · exact .runsOut hp hc rfl
      · have hlt := Clock.le_ceil hg d
        exact .late hp (by omega) (by omega) rfl

/-! ## After the end -/

/-- What is left of a career after the instant `t` at which the session of `x` had expired. -/
structure After (x y : Career) : Prop where
  phase : y.session.phase = .expired
  start : y.session.start = x.session.start
  lease : y.session.lease = x.session.lease
  server : y.session.server = x.session.server
  /-- Time has passed only if the watch is over. -/
  ended : y.session.watch = .over ∨ y.now = x.now
  /-- The session has not asked to be kept since. -/
  sent : ∀ z ∈ y.sent, z.2.1.Renews → z.1 ≤ x.now

theorem After.step (ho : y.Orderly g f) (h : x.After y) (hs : y.step? g e = some z) :
    x.After z := by
  obtain ⟨n, rfl, hq, -, rfl⟩ | ⟨st, y', hst, hh, rfl⟩ := step_cases hs
  · exact ⟨h.phase, h.start, h.lease, h.server, Or.inl (ho.over_of_settled hq h.phase), h.sent⟩
  · have hf := ClientSession.fares_made? (hh.tidy ho) hst
    obtain ⟨hp, hst, hl, hsv, hov⟩ := hf.of_expired h.phase
    refine ⟨hp, hst.trans h.start, hl.trans h.lease, hsv.trans h.server, ?_, ?_⟩
    · rcases h.ended with hw | hn
      · exact Or.inl (hov hw (ho.ended hw).2).1
      · exact Or.inr (hh.now.trans hn)
    · intro w hw hr
      rcases List.mem_append.1 hw with hw | hw
      · exact h.sent w (hh.sent ▸ hw) hr
      · obtain ⟨v, hv, rfl⟩ := List.mem_map.1 hw
        rcases h.ended with hw | hn
        · rw [(hov hw (ho.ended hw).2).2] at hv
          cases hv
        · exact Nat.le_of_eq (hh.now.trans hn)

theorem Orderly.after (h : x.Orderly g f) (hp : x.session.phase = .expired)
    {es : List Event} (hr : x.run? g es = some y) : x.After y := by
  have both : y.Orderly g f ∧ x.After y :=
    invariant_of_foldlM (P := fun y => y.Orderly g f ∧ x.After y)
      (fun _ _ _ h hs => ⟨h.1.step hs, h.2.step h.1 hs⟩)
      ⟨h, hp, rfl, rfl, rfl, Or.inr rfl, fun z hz _ => h.sent_le z hz⟩ hr
  exact both.2

/-! ## The phases -/

/-- What the phases promise at a point of a career. -/
structure Phased (g : Nat) (f : LeaseConfig) (x : Career) : Prop where
  active : x.Settled → x.session.phase = .active → x.now < x.session.deadline
  jeopardy : ∀ d, x.Settled → x.session.phase = .jeopardy d →
    d = x.session.deadline + f.jeopardy ∧ x.session.deadline ≤ x.now ∧ x.now < d
  change : ∀ e y, x.step? g e = some y → y.session.phase ≠ x.session.phase → Change g x e y
  expired : x.session.phase = .expired → ∀ es y, x.run? g es = some y →
    y.session.phase = .expired ∧ y.session.start = x.session.start ∧
      y.session.lease = x.session.lease ∧ y.session.server = x.session.server ∧
      ∀ z ∈ y.sent, z.2.1.Renews → z.1 ≤ x.now

/-- Whatever servers answer and whenever, the phases of a session are as they should be. -/
theorem phases (hg : 0 < g) (cfg : ClientConfig) (a : Addr) {begun now : Nat} (hb : begun ≤ now)
    (hn : g ∣ now) {es : List Event} (hr : (start cfg a begun now).run? g es = some x) :
    x.Phased g cfg.lease := by
  have h := (orderly_start cfg a hb hn).run hr
  refine ⟨fun hs hp => h.tidy.lt_deadline hs hp, fun d hs hp => ?_,
    fun e y hs hne => h.change hg hs hne, fun hp es y hr => ?_⟩
  · obtain ⟨hd, hle, -, -⟩ := h.grace d hp
    exact ⟨hd, hle, h.lt_of_jeopardy hs hp⟩
  · have ha := h.after hp hr
    exact ⟨ha.phase, ha.start, ha.lease, ha.server, ha.sent⟩

/-- Its lease runs out, and another server takes the session. -/
def recovering : List Event :=
  [.goOn, .pass 1000, .goOn, .goOn, .pass 5,
    .answer (ms 1000, .probe, "b:1", some (.keepAlive "x" (some ∅))) (.ok (.kept ⟨ms 1000, false⟩)),
    .goOn]

theorem phases_of_recovery : ∃ x, 0 < Clock.milli ∧ 0 ≤ 0 ∧ Clock.milli ∣ 0 ∧
    (start ⟨"x", ["b:1"], .fast⟩ "a:1" 0 0).run? Clock.milli recovering = some x ∧ x.Settled ∧
    x.session.phase = .active ∧ x.session.start = ms 1000 ∧ x.session.server = "b:1" ∧
    x.now < x.session.deadline := by
  have hr : ((start ⟨"x", ["b:1"], .fast⟩ "a:1" 0 0).run? Clock.milli recovering).any (fun x =>
      decide x.Settled && x.session.phase == .active && x.session.start == ms 1000 &&
        x.session.server == "b:1") = true := by
    decide +kernel
  obtain ⟨x, hx, hs⟩ := (Option.any_eq_true _ _).1 hr
  simp only [Bool.and_eq_true, decide_eq_true_eq, beq_iff_eq] at hs
  obtain ⟨⟨⟨hq, hp⟩, hst⟩, hsv⟩ := hs
  have h := phases (by decide) ⟨"x", ["b:1"], .fast⟩ "a:1" (Nat.le_refl 0) (Nat.dvd_zero _) hx
  exact ⟨x, by decide, Nat.le_refl 0, Nat.dvd_zero _, hx, hq, hp, hst, hsv, h.active hq hp⟩

/-- A session need not be closed, nor told that it is over, to expire at another instant than the
end of its grace: one that begins later than that expires at once. -/
theorem expires_late : ¬ ∀ (g : Nat) (cfg : ClientConfig) (a : Addr) (begun now : Nat)
    (es : List Event) (x y : Career) (e : Event), 0 < g → 0 < cfg.lease.length → begun ≤ now →
    g ∣ now → (start cfg a begun now).run? g es = some x → x.step? g e = some y →
    x.session.phase ≠ .expired → y.session.phase = .expired →
    e = .close ∨ (∃ w k, (w, .ok (.kept k)) ∈ x.heard ∧ k.expired = true) ∨
      x.session.phase = .jeopardy x.now := by
  intro h
  have hx : ∃ x y, (start ⟨"x", ["a:1"], .fast⟩ "a:1" 0 (ms 4100)).run? Clock.milli [.goOn] = some x ∧
      x.step? Clock.milli .goOn = some y ∧ x.session.phase = .jeopardy (ms 4000) ∧
      y.session.phase = .expired ∧ x.heard = [] ∧ x.now = ms 4100 :=
    ⟨_, _, rfl, rfl, rfl, rfl, rfl, rfl⟩
  obtain ⟨x, y, hr, hs, hp, hy, hh, hn⟩ := hx
  rcases h Clock.milli ⟨"x", ["a:1"], .fast⟩ "a:1" 0 (ms 4100) [.goOn] x y .goOn (by decide)
    (by decide) (Nat.zero_le _) ⟨4100, by decide⟩ hr hs (by simp [hp]) hy with he | ⟨w, k, hm, -⟩ | hd
  · cases he
  · rw [hh] at hm
    cases hm
  · rw [hp, hn] at hd
    exact absurd (Phase.jeopardy.inj hd) (by decide)

end Career

end LockCell
