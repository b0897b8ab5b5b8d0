import LockCell.Proofs.Client.Attempts
import Mathlib.Data.List.Nodup

/-
  LockCell.Proofs.Client.Gate — lock calls are gated by the phase.

  The watch comes first: as long as it has something to do, no lock call does anything, and
  what lock calls do leaves the watch with nothing to do (`watchStep?_calls`). So the phase in
  which calls leave the gate at an instant is the one that the session has when all is done at
  that instant (`passes_run`), and what becomes of a call at the gate is told by it
  (`story_of_gate`). The session gets there, for everything it does takes from its `toil`
  (`exists_settled`).
-/

namespace LockCell

/-- How much a lock call has to do before it is sent. -/
def CallState.toil : CallState → Nat
  | .flying => 0
  | .gate => 1
  | .resting _ => 2

namespace ClientSession

variable {s : ClientSession} {now id : Nat} {c : LockCall} {x : Step}

/-! ## When there is nothing to do -/

/-- The watch does not look at the lock calls. -/
theorem watchStep?_calls (s : ClientSession) (l : List LockCall) (now : Nat) :
    { s with calls := l }.watchStep? now = none ↔ s.watchStep? now = none := by
  unfold watchStep? renewStep? searchStep? deadline
  dsimp only
  repeat' split
  all_goals simp_all

theorem step?_eq_none_iff :
    s.step? now = none ↔ s.watchStep? now = none ∧ ∀ c ∈ s.calls, s.callStep? now c = none := by
  unfold step?
  simp only [Option.orElse_eq_orElse, Option.orElse_eq_or, Option.or_eq_none_iff,
    List.findSome?_eq_none_iff]

theorem callStep?_eq_none_iff : s.callStep? now c = none ↔
    c.state = .flying ∨ (∃ t, c.state = .resting t ∧ now < t) ∨
      c.state = .gate ∧ ∃ d, s.phase = .jeopardy d := by
  unfold callStep?
  split
  · rename_i h
    simp [h]
  · rename_i t h
    by_cases hle : t ≤ now <;> simp [h, hle]; omega
  · rename_i h
    cases hp : s.phase <;> simp [h]

/-! ## Everything that is done is one thing less to do -/

/-- How much the watch has to do at this instant, at most. -/
def watchToil (s : ClientSession) (now : Nat) : Nat :=
  match s.watch, s.found, s.probe with
  | .over, _, _ => 0
  | .searching, none, .asking .. => 1
  | .searching, none, .resting t => if t ≤ now then 2 else 1
  | .searching, none, .idle => 3
  | .renewing, _, _ => 4 + 2 * s.inbox.length + if s.inFlight then 0 else 1
  | .searching, some _, _ => 5 + 2 * s.inbox.length

@[simp] theorem watchToil_endWatch (s : ClientSession) (now : Nat) :
    s.endWatch.1.watchToil now = 0 := rfl

theorem watchToil_pos (hw : s.watch = .searching) : 0 < s.watchToil now := by
  rw [watchToil, hw]
  cases s.found with
  | some => exact Nat.add_pos_left (by decide) _
  | none =>
    cases s.probe with
    | idle | asking => exact Nat.succ_pos _
    | resting t =>
      dsimp only
      split <;> decide

theorem watchToil_renew_le (hw : s.watch = .renewing) :
    (s.renew now).1.watchToil now ≤ 5 + 2 * s.inbox.length := by
  unfold renew
  split <;> simp only [watchToil, hw] <;> split <;> omega

theorem watchToil_take_le (hw : s.watch = .renewing) (g : Nat) (r : Except Error KeepAlive)
    (now : Nat) :
    (s.take g r now).1.watchToil now ≤ 5 + 2 * s.inbox.length := by
  unfold take
  dsimp only
  repeat' split
  · exact watchToil_renew_le hw
  · exact Nat.zero_le _
  · exact watchToil_renew_le (s := { s with inFlight := false, lease := _, next := _ }) hw
  · exact watchToil_renew_le (s := { s with inFlight := false, next := _ }) hw
  · exact watchToil_renew_le (s := { s with inFlight := false }) hw

/-- The candidates are asked, or it is rested for a while. -/
theorem watchToil_ask_le (hw : s.watch = .searching) (hf : s.found = none) (now : Nat)
    (l : List Addr) :
    (s.ask now l).1.watchToil now ≤ 2 ∧
      (0 < s.config.probe ∨ l ≠ [] → (s.ask now l).1.watchToil now ≤ 1) := by
  cases l with
  | nil =>
    simp only [ask, watchToil, hw, hf]
    split
    · exact ⟨Nat.le_refl _, fun h => by simp at h; omega⟩
    · exact ⟨by omega, fun _ => Nat.le_refl _⟩
  | cons a l => simp [ask, watchToil, hw, hf]

theorem watchToil_lt (hp : 0 < s.config.probe ∨ s.candidates ≠ [])
    (hx : s.watchStep? now = some x) : x.1.watchToil now < s.watchToil now := by
  have renewing : s.watch = .renewing → 4 + 2 * s.inbox.length ≤ s.watchToil now := by
    intro hw
    simp only [watchToil, hw]
    omega
  cases WatchStep.of_watchStep? hx with
  | ends _ hw =>
    rw [watchToil_endWatch]
    cases hv : s.watch with
    | renewing =>
      have hle := renewing hv
      omega
    | searching => exact watchToil_pos hv
    | _ => exact absurd hv hw
  | @hears g r rest _ hw hi =>
    have hpos := renewing hw
    have hle := watchToil_take_le (s := { s with inbox := rest }) hw g r now
    rw [hi, List.length_cons] at hpos
    dsimp only at hle
    omega
  | falls _ hw =>
    refine Nat.lt_of_lt_of_le ?_ (renewing hw)
    simp only [fallInJeopardy, watchToil]
    omega
  | renews _ hw hd =>
    obtain ⟨hf, -⟩ : s.inFlight = false ∧ _ := by simpa using hd
    rw [renew, if_pos hd]
    simp [watchToil, hw, hf]
  | refused _ hw | runsOut _ hw => exact watchToil_pos hw
  | recovers _ hw hf => simp [recover_eq, watchToil, hw, hf]
  | asks _ hw hf _ hb =>
    have hle := watchToil_ask_le hw hf now s.candidates
    rcases hb with hb | ⟨t, hb, ht⟩
    · have hle := hle.1
      simp only [watchToil, hw, hf, hb] at hle ⊢
      omega
    · have hle := hle.2 hp
      simp only [watchToil, hw, hf, hb, if_pos ht] at hle ⊢
      omega

/-- How much lock calls have to do before all are sent. -/
def callToil : List LockCall → Nat
  | [] => 0
  | c :: l => c.state.toil + callToil l

@[simp] theorem callToil_cons (c : LockCall) (l : List LockCall) :
    callToil (c :: l) = c.state.toil + callToil l := rfl

theorem callToil_setCall {d : LockCall} (h : s.called c.id = [d]) :
    callToil (s.setCall c).calls + d.state.toil = callToil s.calls + c.state.toil := by
  unfold called at h
  unfold setCall
  dsimp only
  generalize s.calls = l at h ⊢
  induction l with
  | nil => cases h
  | cons e l ih =>
    rw [List.filter_cons] at h
    by_cases he : e.id = c.id
    · rw [if_pos (by simpa using he), List.cons.injEq, List.filter_eq_nil_iff] at h
      obtain ⟨rfl, hl⟩ := h
      have hm : l.map (fun d => if d.id = c.id then c else d) = l :=
        (List.map_congr_left fun d hd => if_neg (by simpa using hl d hd)).trans (List.map_id l)
      rw [List.map_cons, if_pos he, hm, callToil_cons, callToil_cons]
      omega
    · rw [if_neg (by simpa using he)] at h
      rw [List.map_cons, if_neg he, callToil_cons, callToil_cons]
      have he := ih h
      omega

theorem callToil_dropCall {d : LockCall} (h : s.called id = [d]) :
    callToil (s.dropCall id).calls + d.state.toil = callToil s.calls := by
  unfold called at h
  unfold dropCall
  dsimp only
  generalize s.calls = l at h ⊢
  induction l with
  | nil => cases h
  | cons e l ih =>
    rw [List.filter_cons] at h
    by_cases he : e.id = id
    · rw [if_pos (by simpa using he), List.cons.injEq, List.filter_eq_nil_iff] at h
      obtain ⟨rfl, hl⟩ := h
      have hm : l.filter (·.id ≠ id) = l := List.filter_eq_self.2 fun d hd => by simpa using hl d hd
      rw [List.filter_cons_of_neg (by simpa using he), hm, callToil_cons, Nat.add_comm]
    · rw [if_neg (by simpa using he)] at h
      rw [List.filter_cons_of_pos (by simpa using he), callToil_cons, callToil_cons, Nat.add_assoc,
        ih h]

/-- How much there is to do at this instant, at most. -/
def toil (s : ClientSession) (now : Nat) : Nat := s.watchToil now + callToil s.calls

theorem toil_lt (hone : ∀ c ∈ s.calls, s.called c.id = [c])
    (hp : 0 < s.config.probe ∨ s.candidates ≠ []) (hx : s.step? now = some x) :
    x.1.toil now < s.toil now := by
  rcases step?_cases hx with hx | ⟨-, c, hc, hx⟩
  · rw [toil, toil, (aside_watchStep? hx).calls]
    exact Nat.add_lt_add_right (watchToil_lt hp hx) _
  · have hset : ∀ st : CallState, st.toil < c.state.toil →
        (s.setCall { c with state := st }).toil now < s.toil now := fun st hst => by
      have he := callToil_setCall (c := { c with state := st }) (hone c hc)
      dsimp only at he
      exact Nat.add_lt_add_left (by omega) _
    cases CallStep.of_callStep? hx with
    | returns hs => exact hset .gate (by simp [hs, CallState.toil])
    | goes hs => exact hset .flying (by simp [hs, CallState.toil])
    | fails hs =>
      have he := callToil_dropCall (hone c hc)
      rw [hs, CallState.toil] at he
      exact Nat.add_lt_add_left (show callToil (s.dropCall c.id).calls < _ by omega) _

end ClientSession

namespace Career

variable {g id n : Nat} {f : LeaseConfig} {x y z : Career} {e : Event} {c : LockCall}

/-- The session goes on by itself, so many times. -/
def onward (n : Nat) : List Event := List.replicate n .goOn

theorem goOn_cases (h : x.step? g .goOn = some y) :
    ∃ st, x.session.step? x.now = some st ∧ y = x.take st := by
  obtain ⟨n, he, -⟩ | ⟨st, x', hst, hx', rfl⟩ := made_cases h
  · cases he
  · cases hx'
    exact ⟨st, hst, rfl⟩

theorem step?_goOn {st : ClientSession.Step} (h : x.session.step? x.now = some st) :
    x.step? g .goOn = some (x.take st) := by
  show (x.session.step? x.now).bind _ = _
  rw [h]
  rfl

theorem run?_onward_succ : x.run? g (onward (n + 1)) = some y ↔
    ∃ w, x.step? g .goOn = some w ∧ w.run? g (onward n) = some y :=
  Option.bind_eq_some_iff

/-- Every number stands somewhere, so no two calls have one. -/
def Placed (x : Career) : Prop := ∀ id, ∃ stage, x.Stands id stage

theorem Placed.goOn (h : x.Placed) (hs : x.step? g .goOn = some y) : y.Placed := fun id => by
  obtain ⟨stage, hst⟩ := h id
  obtain ⟨stage', hst', -⟩ := hst.step hs fun op he => nomatch he
  exact ⟨stage', hst'⟩

theorem Placed.called (h : x.Placed) (hc : c ∈ x.session.calls) : x.session.called c.id = [c] :=
  (h c.id).choose_spec.eq_singleton (ClientSession.mem_called.2 ⟨hc, rfl⟩)

theorem settled_iff : x.Settled ↔ x.session.watchStep? x.now = none ∧
    ∀ c ∈ x.session.calls, x.session.callStep? x.now c = none :=
  ClientSession.step?_eq_none_iff

/-- What the session does at an instant comes to an end. -/
theorem Placed.exists_settled (ho : x.Orderly g f) (h : x.Placed)
    (hp : 0 < x.session.config.probe ∨ x.session.candidates ≠ []) :
    ∃ n y, x.run? g (onward n) = some y ∧ y.Settled := by
  induction hm : x.session.toil x.now using Nat.strongRecOn generalizing x with
  | ind m ih =>
    subst hm
    cases hst : x.session.step? x.now with
    | none => exact ⟨0, x, rfl, hst⟩
    | some st =>
      have hs := step?_goOn (g := g) hst
      obtain ⟨-, hconfig, hcand⟩ := settings_step ho hs
      have hlt := ClientSession.toil_lt (fun c hc => h.called hc) hp hst
      obtain ⟨n, y, hr, hy⟩ := ih _ hlt (ho.step hs) (h.goOn hs) (by rwa [hconfig, hcand]) rfl
      exact ⟨n + 1, y, run?_onward_succ.2 ⟨_, hs, hr⟩, hy⟩

/-! ## What becomes of a call at the gate -/

/-- Once the watch has nothing to do it has nothing to do at this instant. -/
theorem passes_run (hw : x.session.watchStep? x.now = none) (hr : x.run? g (onward n) = some y) :
    y.session.phase = x.session.phase ∧ y.session.server = x.session.server := by
  induction n generalizing x with
  | zero =>
    cases hr
    exact ⟨rfl, rfl⟩
  | succ n ih =>
    obtain ⟨w, hs, hr⟩ := run?_onward_succ.1 hr
    obtain ⟨st, hst, rfl⟩ := goOn_cases hs
    obtain ⟨l, hl⟩ : ∃ l, st.1 = { x.session with calls := l } := by
      rcases ClientSession.step?_cases hst with hn | ⟨-, c, -, hc⟩
      · cases hw.symm.trans hn
      · cases ClientSession.CallStep.of_callStep? hc with
        | returns | goes | fails => exact ⟨_, rfl⟩
    have hw' : (x.take st).session.watchStep? (x.take st).now = none := by
      show st.1.watchStep? x.now = none
      rw [hl]
      exact (ClientSession.watchStep?_calls x.session l x.now).2 hw
    obtain ⟨hp, hsv⟩ := ih hw' hr
    rw [hp, hsv]
    show st.1.phase = _ ∧ st.1.server = _
    rw [hl]
    exact ⟨rfl, rfl⟩

theorem story_onward_succ (id : Nat) (hr : x.run? g (onward (n + 1)) = some y) :
    ∃ st, x.session.step? x.now = some st ∧ (x.take st).run? g (onward n) = some y ∧
      x.story g id (onward (n + 1)) =
        st.2.filterMap (Effect.tell? id x.now) ++ (x.take st).story g id (onward n) := by
  obtain ⟨w, hs, hr⟩ := run?_onward_succ.1 hr
  obtain ⟨st, hst, rfl⟩ := goOn_cases hs
  refine ⟨st, hst, hr, ?_⟩
  have ht : x.tells id .goOn = st.2.filterMap (Effect.tell? id x.now) := by
    unfold tells
    rw [show Event.made? x.session x.now .goOn = some st from hst]
    rfl
  show story g x id (.goOn :: onward n) = _
  rw [story, hs, ht]

/-- A call that has left the gate has nothing more to tell at this instant. -/
theorem story_of_left (id : Nat) (h : ∀ c ∈ x.session.called id, c.state = .flying)
    (hr : x.run? g (onward n) = some y) : x.story g id (onward n) = [] := by
  induction n generalizing x with
  | zero => rfl
  | succ n ih =>
    obtain ⟨st, hst, hr, hstory⟩ := story_onward_succ id hr
    rw [hstory]
    cases ClientSession.treats_made? (e := .goOn) hst id with
    | leaves hc hf =>
      rw [(ClientSession.of_not_touches hf x.now).2.2, List.nil_append]
      exact ih (fun c hm => h c (hc ▸ hm)) hr
    | returns hc hs | goes hc hs | fails hc hs => cases (h _ hc).symm.trans hs

/-- A call at the gate is still there, or it has left it in the phase that the session comes to. -/
theorem story_of_gate (ho : x.Orderly g f) (h : x.Placed) (hc : c ∈ x.session.calls)
    (hs : c.state = .gate) (hr : x.run? g (onward n) = some y) :
    (c ∈ y.session.calls ∧ x.story g c.id (onward n) = []) ∨
      (y.session.phase = .active ∧
        x.story g c.id (onward n) = [.sent x.now y.session.server]) ∨
      (y.session.phase = .expired ∧
        x.story g c.id (onward n) =
          [.ended x.now (.error (.sessionExpired x.session.client))]) := by
  induction n generalizing x with
  | zero =>
    cases hr
    exact .inl ⟨hc, rfl⟩
  | succ n ih =>
    have hall := hr
    obtain ⟨st, hst, hr, hstory⟩ := story_onward_succ c.id hr
    have hw := step?_goOn (g := g) hst
    have hcalled := h.called hc
    have hgate : ∀ d ∈ x.session.called c.id, d = c := fun d hd =>
      List.mem_singleton.1 (hcalled ▸ hd)
    rw [hstory]
    cases ClientSession.treats_made? (e := .goOn) hst c.id with
    | leaves hsame hf =>
      rw [(ClientSession.of_not_touches hf x.now).2.2, List.nil_append]
      have hm : c ∈ st.1.called c.id := by
        rw [hsame, hcalled]
        exact List.mem_singleton_self c
      have := ih (ho.step hw) (h.goOn hw) (ClientSession.mem_called.1 hm).1 hr
      rwa [(settings_step ho hw).1] at this
    | returns hd hds =>
      rw [hgate _ hd, hs] at hds
      cases hds
    | @goes d hd hds hwatch hp =>
      obtain ⟨hphase, hserver⟩ := passes_run hwatch hall
      have hleft := story_of_left c.id (fun e he => ?_) hr
      · rw [hleft, tell?_send, hserver, hphase]
        exact .inr (.inl ⟨hp, rfl⟩)
      · obtain rfl := hgate d hd
        change e ∈ (x.session.setCall _).called d.id at he
        rw [ClientSession.called_setCall, if_pos rfl, hcalled] at he
        rw [List.mem_singleton.1 he]
    | fails hd hds hwatch hp =>
      obtain ⟨hphase, -⟩ := passes_run hwatch hall
      have hleft := story_of_left c.id (fun e he => ?_) hr
      · rw [hleft, tell?_finish, hphase]
        exact .inr (.inr ⟨hp, rfl⟩)
      · change e ∈ (x.session.dropCall c.id).called c.id at he
        rw [ClientSession.called_dropCall, if_pos rfl] at he
        cases he

/-! ## Who is sent where -/

/-- Lock requests go out while the session is active, and to its server. -/
theorem sent_of_step? (hs : x.step? g e = some y) :
    ∃ later, y.sent = x.sent ++ later ∧ ∀ z ∈ later, ∀ id, z.2.1 = .lock id →
      x.session.phase = .active ∧ z.1 = x.now ∧ z.2.2.1 = x.session.server := by
  obtain ⟨n, rfl, -, -, rfl⟩ | ⟨st, x', hst, hh, rfl⟩ := step_cases hs
  · exact ⟨[], (List.append_nil _).symm, List.forall_mem_nil _⟩
  · refine ⟨(sentOf st.2).map (x'.now, ·), by rw [← hh.sent]; rfl, fun z hz id hid => ?_⟩
    obtain ⟨w, hw, rfl⟩ := List.mem_map.1 hz
    cases ClientSession.treats_made? hst id with
    | goes hc hg hwatch hp =>
      obtain rfl := List.mem_singleton.1 hw
      exact ⟨hp, hh.now, rfl⟩
    | leaves _ hf =>
      have hn := List.countP_eq_zero.1 (ClientSession.of_not_touches hf x.now).2.1 w hw
      exact absurd (decide_eq_true hid) hn
    | answered _ _ _ hf =>
      rw [hf] at hw
      cases hw
    | abandoned =>
      rw [(ClientSession.out_abandon x.session id).2.1] at hw
      cases hw
    | _ => cases hw

/-- An expired session sends no lock request any more. -/
theorem Orderly.sent_of_expired (ho : x.Orderly g f) (hp : x.session.phase = .expired)
    {es : List Event} (hr : x.run? g es = some y) :
    ∃ later, y.sent = x.sent ++ later ∧ ∀ z ∈ later, ∀ id, z.2.1 ≠ .lock id := by
  induction es generalizing x with
  | nil =>
    cases hr
    exact ⟨[], (List.append_nil _).symm, List.forall_mem_nil _⟩
  | cons e es ih =>
    obtain ⟨w, hw, hr⟩ : ∃ w, x.step? g e = some w ∧ w.run? g es = some y :=
      Option.bind_eq_some_iff.1 hr
    obtain ⟨l, hl, hactive⟩ := sent_of_step? hw
    have hone : x.run? g [e] = some w := by
      rw [run?, List.foldlM_cons, hw]
      rfl
    have hpw := (ho.after hp hone).phase
    obtain ⟨m, hm, hne⟩ := ih (ho.step hw) hpw hr
    refine ⟨l ++ m, by rw [hm, hl, List.append_assoc], fun z hz id hid => ?_⟩
    rcases List.mem_append.1 hz with hz | hz
    · cases hp.symm.trans (hactive z hz id hid).1
    · exact hne z hz id hid

/-! ## The gate -/

/-- A call that is made while the session has nothing to do stays at the gate in jeopardy, and
only then. -/
theorem settled_call_iff (hs : x.Settled) {op : LockOp} (hop : x.session.refusal? op = none)
    (hy : x.step? g (.call id op) = some y) :
    y.Settled ↔ ∃ d, x.session.phase = .jeopardy d := by
  obtain ⟨n, he, -⟩ | ⟨st, x', hst, hx', rfl⟩ := made_cases hy
  · cases he
  cases hst
  cases hx'
  obtain ⟨hw, hc⟩ := settled_iff.1 hs
  rw [settled_iff]
  simp only [take, ClientSession.call, hop]
  rw [ClientSession.watchStep?_calls]
  simp only [ClientSession.callStep?_eq_none_iff] at hc ⊢
  constructor
  · rintro ⟨-, h⟩
    simpa using h _ (List.mem_append_right _ (List.mem_singleton_self _))
  · refine fun hp => ⟨hw, fun c hm => ?_⟩
    rcases List.mem_append.1 hm with hm | hm
    · exact hc c hm
    · obtain rfl := List.mem_singleton.1 hm
      exact .inr (.inr ⟨rfl, hp⟩)

/-- What the gate promises at a point of a career. -/
structure Gated (g : Nat) (cfg : ClientConfig) (x : Career) : Prop where
  /-- What is sent for lock calls is sent while the session is active, to its server. -/
  sent : ∀ e y, x.step? g e = some y → ∃ later, y.sent = x.sent ++ later ∧
    ∀ z ∈ later, ∀ id, z.2.1 = .lock id →
      x.session.phase = .active ∧ z.1 = x.now ∧ z.2.2.1 = x.session.server
  /-- A call that is neither out nor in its pause waits for the end of a jeopardy. -/
  waits : x.Settled → ∀ c ∈ x.session.calls, c.state = .flying ∨
    (∃ t, c.state = .resting t ∧ x.now < t) ∨ c.state = .gate ∧ ∃ d, x.session.phase = .jeopardy d
  /-- A call that comes waits in jeopardy, and only then. -/
  comes : x.Settled → ∀ id op y, x.session.refusal? op = none →
    x.step? g (.call id op) = some y → (y.Settled ↔ ∃ d, x.session.phase = .jeopardy d)
  /-- When all is done at an instant, a call that was at the gate has been sent to the present
  server, is still there, or has ended with the session. -/
  leaves : ∀ n y, x.run? g (onward n) = some y → y.Settled →
    ∀ c ∈ x.session.calls, c.state = .gate → x.story g c.id (onward n) =
      match y.session.phase with
      | .active => [.sent x.now y.session.server]
      | .jeopardy _ => []
      | .expired => [.ended x.now (.error (.sessionExpired cfg.client))]
  /-- All is done some time, unless there are no candidates and no pauses between two searches
  for one. -/
  settles : 0 < cfg.lease.probe ∨ cfg.servers ≠ [] →
    ∃ n y, x.run? g (onward n) = some y ∧ y.Settled
  expired : x.session.phase = .expired → ∀ es y, x.run? g es = some y →
    ∃ later, y.sent = x.sent ++ later ∧ ∀ z ∈ later, ∀ id, z.2.1 ≠ .lock id

theorem stands_start (cfg : ClientConfig) (a : Addr) (begun now id : Nat) :
    (start cfg a begun now).Stands id .absent := ⟨rfl, rfl⟩

theorem settings_run (ho : x.Orderly g f) {es : List Event} (hr : x.run? g es = some y) :
    y.session.client = x.session.client ∧ y.session.config = x.session.config ∧
      y.session.candidates = x.session.candidates :=
  (invariant_of_foldlM (P := fun y => y.Orderly g f ∧ y.session.client = x.session.client ∧
      y.session.config = x.session.config ∧ y.session.candidates = x.session.candidates)
    (fun _ _ _ ⟨ho, h⟩ hs => by
      obtain ⟨hc, hg, hl⟩ := settings_step ho hs
      exact ⟨ho.step hs, hc.trans h.1, hg.trans h.2.1, hl.trans h.2.2⟩)
    ⟨ho, rfl, rfl, rfl⟩ hr).2

/-- **Lock calls are gated by the phase.** Whatever servers answer and whenever, calls are sent
while the session is active, to its server; they wait in jeopardy, and end with the session. A
call is sent while no attempt is out, again only after the peer hung up on the last one and a
pause after that. -/
theorem gated_of_run (cfg : ClientConfig) (a : Addr) {begun now : Nat} (hb : begun ≤ now)
    (hn : g ∣ now) {es : List Event} (hu : (numbers es).Nodup)
    (hr : (start cfg a begun now).run? g es = some x) :
    x.Gated g cfg ∧ ∀ id, x.attempts id ≤ 1 ∧
      ∃ stage, Tries cfg.lease.probe cfg.client .absent
        ((start cfg a begun now).story g id es) stage := by
  have hstart := orderly_start cfg a hb hn
  have ho := hstart.run hr
  obtain ⟨hclient, hconfig, hcand⟩ := settings_run hstart hr
  have hstands (id : Nat) := (stands_start cfg a begun now id).run hstart hr (fun _ => rfl)
    (List.nodup_iff_count_le_one.1 hu id)
  have hplaced : x.Placed := fun id => (hstands id).imp fun _ h => h.1
  refine ⟨⟨fun e y hs => sent_of_step? hs, fun hs c hc => ?_, fun hs id op y hop hy => ?_,
    fun n y hr hs c hc hg => ?_, fun hp => ?_, fun hp es y hr => ho.sent_of_expired hp hr⟩,
    fun id => ?_⟩
  · exact ClientSession.callStep?_eq_none_iff.1 ((settled_iff.1 hs).2 c hc)
  · exact settled_call_iff hs hop hy
  · rcases story_of_gate ho hplaced hc hg hr with ⟨hm, hst⟩ | ⟨hp, hst⟩ | ⟨hp, hst⟩
    · obtain hf | ⟨t, ht, -⟩ | ⟨-, d, hd⟩ :=
        ClientSession.callStep?_eq_none_iff.1 ((settled_iff.1 hs).2 c hm)
      · cases hg.symm.trans hf
      · cases hg.symm.trans ht
      · rw [hst, hd]
    · rw [hst, hp]
    · rw [hst, hp, hclient]
      rfl
  · exact hplaced.exists_settled ho (by rwa [hconfig, hcand])
  · obtain ⟨stage, hst, ht⟩ := hstands id
    exact ⟨hst.le_one, stage, ht⟩

/-- The peer hangs up on a call, which is sent again after the pause. Then the lease runs out,
another call comes and waits, and a third one fails with the session. -/
def outage : List Event :=
  [.goOn, .call 1 (.openLock "L"), .goOn,
    .answer (0, .lock 1, "a:1", some (.openLock "x" "L")) (.error (.connectionClosed "a:1")),
    .pass 50, .goOn, .goOn, .pass 950, .goOn, .goOn, .call 2 (.openLock "M"), .pass 5,
    .answer (ms 1000, .probe, "b:1", some (.keepAlive "x" (some ∅))) (.ok (.kept ⟨ms 1000, false⟩)),
    .goOn, .goOn, .close, .call 3 (.openLock "N"), .goOn, .goOn]

theorem gated_of_outage : 0 ≤ 0 ∧ Clock.milli ∣ 0 ∧ (numbers outage).Nodup ∧
    ∃ x, (start ⟨"x", ["b:1"], .fast⟩ "a:1" 0 0).run? Clock.milli outage = some x ∧
      x.Gated Clock.milli ⟨"x", ["b:1"], .fast⟩ ∧
      [1, 2, 3].map
          (fun id => (start ⟨"x", ["b:1"], .fast⟩ "a:1" 0 0).story Clock.milli id outage) =
        [[.made, .sent 0 "a:1", .heard 0 (.error (.connectionClosed "a:1")), .sent (ms 50) "a:1"],
          [.made, .sent (ms 1005) "b:1"],
          [.made, .ended (ms 1005) (.error (.sessionExpired "x"))]] := by
  have hr : ((start ⟨"x", ["b:1"], .fast⟩ "a:1" 0 0).run? Clock.milli outage).isSome = true := by
    decide +kernel
  obtain ⟨x, hx⟩ := Option.isSome_iff_exists.1 hr
  have hu : (numbers outage).Nodup := by decide
  exact ⟨Nat.le_refl 0, Nat.dvd_zero _, hu, x, hx,
    (gated_of_run ⟨"x", ["b:1"], .fast⟩ "a:1" (Nat.le_refl 0) (Nat.dvd_zero _) hu hx).1,
    by decide +kernel⟩

end Career

end LockCell
