import LockCell.Proofs.Client.Calls
import LockCell.Proofs.Client.Phases
import Mathlib.Data.List.Perm.Subperm

/-
  LockCell.Proofs.Client.Resends — what has been answered for good is not asked again.

  A lock call that is over is in no list any more, and only a listed call goes out
  (`plays_of_sent_made?`). With keep-alives it takes more. `Beats` lists all that a step can
  make of them. So of one generation no more than one is ever out or answered and not yet
  looked at (`Lone`); when its answer is an error that is no reason to send it again, no
  other is due, and none of this generation follows (`Refused`).

  `Over` is either of the two, and holds on whatever comes next (`Over.run`), but for a new
  call of the same number.
-/

namespace LockCell

namespace ClientSession

variable {s s' : ClientSession} {now g id : Nat} {out out' : List Sent} {x : Step}

/-! ## What becomes of keep-alives -/

/-- No keep-alive is among them. -/
def Silent (l : List Sent) : Prop := ∀ z ∈ l, ∀ g, z.1 ≠ .keepAlive g

/-- How the session may be changed before the next keep-alive is thought of. -/
inductive Readies (s s' : ClientSession) : Prop
  | still : (s'.watch = .over ↔ s.watch = .over) → s'.generation = s.generation →
      s'.inbox = s.inbox → s'.inFlight = s.inFlight → s'.next = s.next → Readies s s'
  /-- An answer to a keep-alive of an earlier generation is dropped. -/
  | stale {z : Nat × Except Error KeepAlive} : s'.watch = s.watch →
      s'.generation = s.generation → s.inbox = z :: s'.inbox → z.1 ≠ s.generation →
      s'.inFlight = s.inFlight → s'.next = s.next → Readies s s'
  /-- The answer has been looked at. -/
  | heard {r : Except Error KeepAlive} : s'.watch = s.watch → s'.generation = s.generation →
      s.inbox = (s.generation, r) :: s'.inbox → s'.inFlight = false →
      (∀ e, r = .error e → e.isTransient = false → s'.next = s.next) → Readies s s'
  | recovers : s.watch ≠ .over → s'.generation = s.generation + 1 → s'.inbox = s.inbox →
      s'.inFlight = false → Readies s s'

/-- All that a step can make of the keep-alives. -/
inductive Beats (s : ClientSession) (now : Nat) : Step → Prop
  | rests {x : Step} : s.Readies x.1 → Silent (sentOf x.2) → Beats s now x
  | renews {s' : ClientSession} : s'.watch ≠ .over → s.Readies s' → Beats s now (s'.renew now)
  | ends {x : Step} : x.1.watch = .over → Silent (sentOf x.2) → Beats s now x

theorem Readies.refl (s : ClientSession) : s.Readies s := .still .rfl rfl rfl rfl rfl

theorem silent_nil : Silent [] := List.forall_mem_nil _

theorem beats_endWatch (s s' : ClientSession) : s.Beats now s'.endWatch :=
  .ends rfl (by rw [sentOf_endWatch]; exact silent_nil)

theorem silent_ask (s : ClientSession) (now : Nat) (l : List Addr) :
    Silent (sentOf (s.ask now l).2) := by
  cases l with
  | nil => exact silent_nil
  | cons a l => simp [ask, Silent]

theorem beats_ask (s : ClientSession) (now : Nat) (l : List Addr) : s.Beats now (s.ask now l) := by
  refine .rests ?_ (silent_ask s now l)
  cases l <;> exact .still .rfl rfl rfl rfl rfl

theorem beats_take {g : Nat} {r : Except Error KeepAlive}
    {rest : List (Nat × Except Error KeepAlive)} (hw : s.watch ≠ .over) (hi : s.inbox = (g, r) :: rest) :
    s.Beats now ({ s with inbox := rest }.take g r now) := by
  unfold take
  split
  case isTrue hg => exact .renews hw (.stale rfl rfl hi hg rfl rfl)
  case isFalse hg =>
    obtain rfl : g = s.generation := Decidable.not_not.1 hg
    dsimp only
    split
    case h_1 k =>
      split
      · exact beats_endWatch s _
      · exact .renews hw (.heard rfl rfl hi rfl nofun)
    case h_2 e =>
      split
      case isTrue ht =>
        refine .renews hw (.heard rfl rfl hi rfl ?_)
        rintro e' he ht'
        cases he
        rw [ht] at ht'
        cases ht'
      case isFalse => exact .renews hw (.heard rfl rfl hi rfl fun _ _ _ => rfl)

theorem beats_watchStep? (hx : s.watchStep? now = some x) : s.Beats now x := by
  cases WatchStep.of_watchStep? hx with
  | ends => exact beats_endWatch s s
  | hears _ hw hi => exact beats_take (by simp [hw]) hi
  | falls _ hw =>
    refine .rests (.still (by simp [fallInJeopardy, hw]) rfl rfl rfl rfl) ?_
    rw [sentOf_fallInJeopardy]
    exact silent_nil
  | renews _ hw => exact .renews (by simp [hw]) (.refl s)
  | refused | runsOut => exact beats_endWatch s _
  | recovers _ hw => exact .renews nofun (.recovers (by simp [hw]) rfl rfl rfl)
  | asks => exact beats_ask s now _

theorem beats_callStep? {c : LockCall} (hx : s.callStep? now c = some x) : s.Beats now x := by
  cases CallStep.of_callStep? hx with
  | returns | goes | fails => exact .rests (.still .rfl rfl rfl rfl rfl) (by simp [Silent])

theorem beats_step? (hx : s.step? now = some x) : s.Beats now x := by
  rcases step?_cases hx with hx | ⟨-, c, -, hx⟩
  · exact beats_watchStep? hx
  · exact beats_callStep? hx

theorem beats_call (s : ClientSession) (id : Nat) (op : LockOp) (now : Nat) :
    s.Beats now (s.call id op) := by
  unfold call
  split
  · exact .rests (.refl s) silent_nil
  · exact .rests (.still .rfl rfl rfl rfl rfl) silent_nil

theorem beats_abandon (s : ClientSession) (id now : Nat) : s.Beats now (s.abandon id) := by
  refine .rests (.still .rfl rfl rfl rfl rfl) ?_
  unfold abandon
  dsimp only
  split <;> exact silent_nil

/-- The answer to anything but a keep-alive. -/
theorem beats_answer {ask : Ask} (h : ∀ g, ask ≠ .keepAlive g) (r : Except Error Response)
    (now : Nat) : s.Beats now (s.answer ask r now) := by
  cases ask with
  | keepAlive g => exact absurd rfl (h g)
  | probe =>
    show s.Beats now (s.probeAnswer (keptOf r) now)
    unfold probeAnswer
    split
    · split
      · exact .rests (.still .rfl rfl rfl rfl rfl) silent_nil
      · exact beats_ask s now _
    · exact .rests (.refl s) silent_nil
  | lock id =>
    show s.Beats now (s.lockAnswer id r now)
    unfold lockAnswer
    split
    · exact .rests (.refl s) silent_nil
    · split
      · refine .rests ?_ silent_nil
        unfold record
        split <;> exact .still .rfl rfl rfl rfl rfl
      · split <;> exact .rests (.still .rfl rfl rfl rfl rfl) silent_nil

/-! ## One keep-alive at a time -/

/-- The keep-alives of this generation that are out, or answered and not yet looked at. -/
def renewals (s : ClientSession) (out : List Sent) : Nat :=
  out.countP (·.1 = .keepAlive s.generation) + s.inbox.countP (·.1 = s.generation)

/-- There is one at most, and while there is one no other is due. -/
structure Lone (s : ClientSession) (out : List Sent) : Prop where
  count : s.watch ≠ .over → s.renewals out ≤ if s.inFlight then 1 else 0
  next : s.watch ≠ .over → s.inFlight = true → s.next = none

theorem Lone.mono (h : s.Lone out) (ho : out'.Subperm out) : s.Lone out' where
  count hw := Nat.le_trans (Nat.add_le_add_right (ho.countP_le _) _) (h.count hw)
  next := h.next

/-- No keep-alive of the new generation has been sent. -/
theorem Tidy.lone_of_recovers (ht : s.Tidy now out) (hg : s'.generation = s.generation + 1)
    (hi : s'.inbox = s.inbox) (hf : s'.inFlight = false) : s'.Lone out := by
  refine ⟨fun _ => ?_, fun _ hs => ?_⟩
  · have hout : out.countP (·.1 = .keepAlive s'.generation) = 0 := by
      refine List.countP_eq_zero.2 fun z hz he => ?_
      obtain ⟨ask, a, q⟩ := z
      obtain rfl := of_decide_eq_true he
      have := (ht.keepAlives _ a q hz).1
      omega
    have hin : s'.inbox.countP (·.1 = s'.generation) = 0 := by
      refine List.countP_eq_zero.2 fun z hz he => ?_
      have hle := ht.inboxLe z (hi ▸ hz)
      have he := of_decide_eq_true he
      omega
    rw [renewals, hout, hin]
    exact Nat.zero_le _
  · rw [hf] at hs
    cases hs

theorem Lone.readies (h : s.Lone out) (ht : s.Tidy now out) (hr : s.Readies s') : s'.Lone out := by
  cases hr with
  | still hw hg hi hf hn =>
    refine ⟨fun ho => ?_, fun ho hs => ?_⟩
    · rw [renewals, hg, hi, hf]
      exact h.count (mt hw.2 ho)
    · rw [hn]
      exact h.next (mt hw.2 ho) (hf ▸ hs)
  | stale hw hg hi hz hf hn =>
    refine ⟨fun ho => ?_, fun ho hs => ?_⟩
    · have hc := h.count (hw ▸ ho)
      rw [renewals, hi, List.countP_cons_of_neg (by simpa using hz)] at hc
      rw [renewals, hg, hf]
      exact hc
    · rw [hn]
      exact h.next (hw ▸ ho) (hf ▸ hs)
  | heard hw hg hi hf hn =>
    refine ⟨fun ho => ?_, fun _ hs => ?_⟩
    · have hc := h.count (hw ▸ ho)
      rw [renewals, hi, List.countP_cons_of_pos (by simp)] at hc
      rw [renewals, hg, hf]
      rw [if_neg Bool.false_ne_true]
      split at hc <;> omega
    · rw [hf] at hs
      cases hs
  | recovers _ hg hi hf => exact ht.lone_of_recovers hg hi hf

theorem Lone.renew (h : s.Lone out) : (s.renew now).1.Lone (out ++ sentOf (s.renew now).2) := by
  unfold ClientSession.renew
  split
  · rename_i hd
    obtain ⟨hf, -⟩ : s.inFlight = false ∧ _ := by simpa using hd
    refine ⟨fun ho => ?_, fun _ _ => rfl⟩
    have hc := h.count ho
    rw [hf, if_neg Bool.false_ne_true] at hc
    simp only [renewals, sentOf_send, sentOf_nil, List.countP_append, List.countP_singleton,
      if_true] at hc ⊢
    simp only [decide_true, if_true]
    omega
  · simpa using h

theorem Lone.silent (h : s.Lone out) {l : List Sent} (hl : Silent l) : s.Lone (out ++ l) := by
  have hc : l.countP (·.1 = .keepAlive s.generation) = 0 :=
    List.countP_eq_zero.2 fun z hz he => hl z hz _ (of_decide_eq_true he)
  refine ⟨fun ho => ?_, h.next⟩
  rw [renewals, List.countP_append, hc]
  exact h.count ho

theorem Lone.beats (h : s.Lone out) (ht : s.Tidy now out) (hb : s.Beats now x) :
    x.1.Lone (out ++ sentOf x.2) := by
  cases hb with
  | rests hr hl => exact (h.readies ht hr).silent hl
  | renews _ hr => exact (h.readies ht hr).renew
  | ends hw hl => exact ⟨fun ho => absurd hw ho, fun ho => absurd hw ho⟩

theorem lone_begin (cfg : ClientConfig) (a : Addr) (begun now : Nat) :
    (begin cfg a begun now).Lone [] :=
  ⟨fun _ => Nat.zero_le _, nofun⟩

/-- What was out is in the inbox. -/
theorem Lone.told {k : Nat} {z : Sent} (h : s.Lone (z :: out)) (hz : z.1 = .keepAlive k)
    (r : Except Error KeepAlive) : { s with inbox := s.inbox ++ [(k, r)] }.Lone out := by
  refine ⟨fun ho => ?_, h.next⟩
  have hc := h.count ho
  simp only [renewals, List.countP_cons, List.countP_append, List.countP_nil, hz,
    Ask.keepAlive.injEq] at hc ⊢
  omega

/-! ## Keep-alives that have been refused -/

/-- No keep-alive of the generation `g` will follow: the answers to those that were sent are
errors that are no reason to send it again, and no other is due. -/
def Refused (g : Nat) (s : ClientSession) (out : List Sent) : Prop :=
  s.watch = .over ∨ g < s.generation ∨
    g = s.generation ∧ s.next = none ∧
      (∀ r, (g, r) ∈ s.inbox → ∃ e, r = .error e ∧ e.isTransient = false) ∧
      ∀ z ∈ out, z.1 ≠ .keepAlive g

theorem Refused.mono (h : s.Refused g out) (ho : out' ⊆ out) : s.Refused g out' :=
  h.imp_right (Or.imp_right fun ⟨hg, hn, hi, hout⟩ => ⟨hg, hn, hi, fun z hz => hout z (ho hz)⟩)

theorem Refused.readies (h : s.Refused g out) (hr : s.Readies s') : s'.Refused g out := by
  obtain hw | hlt | ⟨rfl, hn, hi, hout⟩ := h
  · cases hr with
    | still hw' => exact Or.inl (hw'.2 hw)
    | stale hw' | heard hw' => exact Or.inl (hw'.trans hw)
    | recovers hw' => exact absurd hw hw'
  · refine Or.inr (Or.inl ?_)
    cases hr with
    | still _ hg | stale _ hg | heard _ hg => exact hg ▸ hlt
    | recovers _ hg => omega
  · refine Or.inr ?_
    cases hr with
    | still _ hg hi' _ hn' => exact Or.inr ⟨hg.symm, hn'.trans hn, hi' ▸ hi, hout⟩
    | stale _ hg hi' _ _ hn' =>
      rw [hi'] at hi
      exact Or.inr ⟨hg.symm, hn'.trans hn, fun r hr => hi r (List.mem_cons_of_mem _ hr), hout⟩
    | heard _ hg hi' _ hn' =>
      rw [hi'] at hi
      obtain ⟨e, rfl, he⟩ := hi _ List.mem_cons_self
      exact Or.inr ⟨hg.symm, (hn' e rfl he).trans hn,
        fun r hr => hi r (List.mem_cons_of_mem _ hr), hout⟩
    | recovers _ hg => exact Or.inl (hg ▸ Nat.lt_succ_self _)

theorem Refused.renew (h : s.Refused g out) (hw : s.watch ≠ .over) :
    (s.renew now).1.Refused g (out ++ sentOf (s.renew now).2) ∧
      ∀ z ∈ sentOf (s.renew now).2, z.1 ≠ .keepAlive g := by
  unfold ClientSession.renew
  split
  · rename_i hd
    obtain ho | hlt | ⟨-, hn, -⟩ := h
    · exact absurd ho hw
    · refine ⟨Or.inr (Or.inl hlt), fun z hz he => ?_⟩
      obtain rfl := List.mem_singleton.1 hz
      cases he
      exact Nat.lt_irrefl _ hlt
    · simp [hn] at hd
  · exact ⟨by simpa using h, List.forall_mem_nil _⟩

theorem Refused.silent (h : s.Refused g out) {l : List Sent} (hl : Silent l) :
    s.Refused g (out ++ l) :=
  h.imp_right (Or.imp_right fun ⟨hg, hn, hi, hout⟩ =>
    ⟨hg, hn, hi, fun z hz => (List.mem_append.1 hz).elim (hout z) fun hz => hl z hz g⟩)

theorem Refused.beats (h : s.Refused g out) (hb : s.Beats now x) :
    x.1.Refused g (out ++ sentOf x.2) ∧ ∀ z ∈ sentOf x.2, z.1 ≠ .keepAlive g := by
  cases hb with
  | rests hr hl => exact ⟨(h.readies hr).silent hl, fun z hz => hl z hz g⟩
  | renews hw hr => exact (h.readies hr).renew hw
  | ends hw hl => exact ⟨Or.inl hw, fun z hz => hl z hz g⟩

/-- An answer to another keep-alive changes nothing. -/
theorem Refused.told (h : s.Refused g out) {k : Nat} {z : Sent} (hz : z ∈ out)
    (hk : z.1 = .keepAlive k) (r : Except Error KeepAlive) :
    Refused g { s with inbox := s.inbox ++ [(k, r)] } out := by
  refine h.imp_right (Or.imp_right fun ⟨hg, hn, hi, hout⟩ => ⟨hg, hn, fun r' hr => ?_, hout⟩)
  rcases List.mem_append.1 hr with hr | hr
  · exact hi r' hr
  · cases List.mem_singleton.1 hr
    exact absurd hk (hout z hz)

/-- An answer that is no reason to send it again refuses a keep-alive. -/
theorem Lone.refused {z : Sent} (h : s.Lone (z :: out)) (hz : z.1 = .keepAlive g)
    (hg : g ≤ s.generation) {e : Error} (he : e.isTransient = false) :
    Refused g { s with inbox := s.inbox ++ [(g, .error e)] } out := by
  by_cases hw : s.watch = .over
  · exact Or.inl hw
  refine Or.inr ((Nat.lt_or_eq_of_le hg).imp id ?_)
  rintro rfl
  -- it is the only one, so no other is out or answered
  have hc := h.count hw
  rw [renewals, List.countP_cons_of_pos (by simp [hz])] at hc
  have hf : s.inFlight = true := by
    cases hf : s.inFlight with
    | true => rfl
    | false => simp [hf] at hc
  rw [if_pos hf] at hc
  have hout := List.countP_eq_zero.1 (by omega : out.countP (·.1 = .keepAlive s.generation) = 0)
  have hin := List.countP_eq_zero.1 (by omega : s.inbox.countP (·.1 = s.generation) = 0)
  refine ⟨rfl, h.next hw hf, fun r hr => ?_, fun z hz hk => hout z hz (decide_eq_true hk)⟩
  rcases List.mem_append.1 hr with hr | hr
  · exact absurd (decide_eq_true rfl) (hin _ hr)
  · cases List.mem_singleton.1 hr
    exact ⟨e, rfl, he⟩

/-! ## Lock calls -/

theorem Aside.ne_lock (h : s.Aside x) : ∀ z ∈ sentOf x.2, z.1 ≠ .lock id := by
  intro z hz
  obtain ⟨e, he, hez⟩ := List.mem_filterMap.1 hz
  have ha := h.effects e he
  cases e with
  | send ask a q =>
    cases hez
    rintro (rfl : ask = .lock id)
    exact ha
  | cancel | finish => cases hez

theorem plays_of_sent_step? (hx : s.step? now = some x) {z : Sent} (hz : z ∈ sentOf x.2)
    (hid : z.1 = .lock id) : s.Plays id := by
  rcases step?_cases hx with hx | ⟨-, c, hc, hx⟩
  · exact absurd hid ((aside_watchStep? hx).ne_lock z hz)
  · cases CallStep.of_callStep? hx with
    | returns | fails => cases hz
    | goes =>
      obtain rfl := List.mem_singleton.1 hz
      cases hid
      exact ⟨c, hc, rfl⟩

theorem sentOf_lockAnswer (s : ClientSession) (id : Nat) (r : Except Error Response) (now : Nat) :
    sentOf (s.lockAnswer id r now).2 = [] := by
  unfold lockAnswer
  repeat' split
  all_goals rfl

/-- Nothing brings a lock call back that is over, but a new call of its number, and it is not
sent. -/
theorem not_plays_made? (h : ¬ s.Plays id) {e : Career.Event} (hx : e.made? s now = some x)
    (hnew : ∀ op, e ≠ .call id op) :
    ¬ x.1.Plays id ∧ ∀ z ∈ sentOf x.2, z.1 ≠ .lock id := by
  have hout (hp : x.Plays id → s.Plays id) : ¬ x.1.Plays id := fun hx => h (hp (Or.inl hx))
  cases e with
  | goOn => exact ⟨hout (of_plays_step? hx), fun z hz hid => h (plays_of_sent_step? hx hz hid)⟩
  | answer w r =>
    cases hx
    refine ⟨hout (of_plays_answer _ r), fun z hz => ?_⟩
    obtain ⟨t, ask, a, q⟩ := w
    cases ask with
    | keepAlive k | probe => exact (aside_answer (by simp) r).ne_lock z hz
    | lock i =>
      have hz : z ∈ sentOf (s.lockAnswer i r now).2 := hz
      rw [sentOf_lockAnswer] at hz
      cases hz
  | call i op =>
    cases hx
    refine ⟨hout fun hp => (plays_call op hp).resolve_right ?_, ?_⟩
    · rintro rfl
      exact hnew op rfl
    · unfold ClientSession.call
      split <;> exact List.forall_mem_nil _
  | abandon i =>
    cases hx
    refine ⟨hout (of_plays_abandon i), ?_⟩
    unfold ClientSession.abandon
    dsimp only
    split <;> exact List.forall_mem_nil _
  | close =>
    cases hx
    exact ⟨h, List.forall_mem_nil _⟩
  | pass => cases hx

/-- A lock call is over if its answer is no reason to send it again. -/
theorem not_plays_lockAnswer {r : Except Error Response}
    (hr : ∀ e, r = .error e → e.isTransient = false) : ¬ (s.lockAnswer id r now).1.Plays id := by
  have hdrop : ¬ (s.dropCall id).Plays id := by
    rw [plays_iff, tally_dropCall, if_pos rfl]
    exact Nat.lt_irrefl 0
  unfold lockAnswer
  split
  · rename_i hc
    rintro ⟨d, hd, rfl⟩
    exact List.find?_eq_none.1 hc d hd (decide_eq_true rfl)
  · split
    · rwa [plays_iff, tally_record, ← plays_iff]
    · rename_i e
      rw [hr e rfl, if_neg Bool.false_ne_true]
      exact hdrop

end ClientSession

/-! ## In a career -/

/-- The answer is no reason to ask again; a keep-alive is refused by it. -/
def Ask.EndedBy : Ask → Except Error Response → Prop
  | .lock _, r => ∀ e, r = .error e → e.isTransient = false
  | .keepAlive _, r => ∃ e, r = .error e ∧ e.isTransient = false
  | .probe, _ => False

namespace Career

variable {g : Nat} {f : LeaseConfig} {x x' y : Career} {e : Event} {ask : Ask}
  {st : ClientSession.Step} {z : Nat × Sent} {r : Except Error Response}

/-- What the session has out. -/
def asks (x : Career) : List Sent := x.out.map Prod.snd

/-- It is not asked any more: the lock call is over, or the keep-alive refused. -/
def Over (x : Career) : Ask → Prop
  | .lock id => ¬ x.session.Plays id
  | .keepAlive k => x.session.Refused k x.asks
  | .probe => False

theorem asks_take (x : Career) (st : ClientSession.Step) :
    (x.take st).asks.Sublist (x.asks ++ sentOf st.2) := by
  simp only [asks, take, List.map_append, List.map_map]
  exact (List.filter_sublist.map _).append (by simp [Function.comp_def])

theorem Hears.asks_sublist (hh : x.Hears e x') : x'.asks.Sublist x.asks := hh.out.map _

theorem Hears.asks_perm (hh : x.Hears (.answer z r) x') : x.asks.Perm (z.2 :: x'.asks) := by
  obtain ⟨hz, -, ho⟩ := hh.answer z r rfl
  rw [asks, asks, ho]
  exact (List.perm_cons_erase hz).map _

theorem beats_made? {s : ClientSession} {now : Nat} (hst : e.made? s now = some st)
    (h : ∀ w r k, e = .answer w r → w.2.1 ≠ .keepAlive k) : s.Beats now st := by
  cases e with
  | goOn => exact ClientSession.beats_step? hst
  | answer w r =>
    cases hst
    exact ClientSession.beats_answer (fun k => h w r k rfl) r now
  | call id op =>
    cases hst
    exact ClientSession.beats_call s id op now
  | abandon id =>
    cases hst
    exact ClientSession.beats_abandon s id now
  | close =>
    cases hst
    exact .rests (.still .rfl rfl rfl rfl rfl) ClientSession.silent_nil
  | pass => cases hst

/-- A step that is no answer to a keep-alive, or one that is. -/
theorem beats_or_told {s : ClientSession} {now : Nat} (hst : e.made? s now = some st) :
    s.Beats now st ∨ ∃ z r k, e = .answer z r ∧ z.2.1 = .keepAlive k ∧
      st = ({ s with inbox := s.inbox ++ [(k, ClientSession.keptOf r)] }, []) := by
  by_cases h : ∃ z r k, e = .answer z r ∧ z.2.1 = .keepAlive k
  · obtain ⟨z, r, k, rfl, hz⟩ := h
    cases hst
    exact Or.inr ⟨z, r, k, rfl, hz, by rw [hz]; rfl⟩
  · exact Or.inl (beats_made? hst fun z r k he hz => h ⟨z, r, k, he, hz⟩)

theorem lone_step (ho : x.Orderly g f) (h : x.session.Lone x.asks) (hs : x.step? g e = some y) :
    y.session.Lone y.asks := by
  obtain ⟨n, rfl, -, -, rfl⟩ | ⟨st, x', hst, hh, rfl⟩ := step_cases hs
  · exact h
  · refine ClientSession.Lone.mono ?_ (asks_take x' st).subperm
    obtain hb | ⟨z, r, k, rfl, hz, rfl⟩ := beats_or_told hst
    · exact (h.mono hh.asks_sublist.subperm).beats (hh.tidy ho) hb
    · rw [sentOf_nil, List.append_nil]
      exact (h.mono hh.asks_perm.symm.subperm).told hz _

theorem lone_run {cfg : ClientConfig} {a : Addr} {begun now : Nat} (hb : begun ≤ now)
    (hn : g ∣ now) {es : List Event} (hr : (start cfg a begun now).run? g es = some x) :
    x.Orderly g cfg.lease ∧ x.session.Lone x.asks :=
  invariant_of_foldlM (P := fun x => x.Orderly g cfg.lease ∧ x.session.Lone x.asks)
    (fun _ _ _ h hs => ⟨h.1.step hs, lone_step h.1 h.2 hs⟩)
    ⟨orderly_start cfg a hb hn, ClientSession.lone_begin cfg a begun now⟩ hr

/-- What is over is not asked again, and stays over. -/
theorem Over.step (h : x.Over ask) (hs : x.step? g e = some y)
    (hnew : ∀ id op, ask = .lock id → e ≠ .call id op) :
    y.Over ask ∧ ∃ later, y.sent = x.sent ++ later ∧ ∀ z ∈ later, z.2.1 ≠ ask := by
  obtain ⟨n, rfl, -, -, rfl⟩ | ⟨st, x', hst, hh, rfl⟩ := step_cases hs
  · exact ⟨by cases ask <;> exact h, [], (List.append_nil _).symm, List.forall_mem_nil _⟩
  have key : (x'.take st).Over ask ∧ ∀ z ∈ sentOf st.2, z.1 ≠ ask := by
    cases ask with
    | lock id => exact ClientSession.not_plays_made? h hst fun op => hnew id op rfl
    | probe => exact h.elim
    | keepAlive n =>
      have hx : x.session.Refused n x'.asks := h.mono hh.asks_sublist.subset
      have hsub := (asks_take x' st).subset
      obtain hb | ⟨z, r, k, rfl, hz, rfl⟩ := beats_or_told hst
      · exact ⟨(hx.beats hb).1.mono hsub, (hx.beats hb).2⟩
      · have hmem : z.2 ∈ x.asks := List.mem_map_of_mem (hh.answer z r rfl).1
        have ht := ClientSession.Refused.told h hmem hz (ClientSession.keptOf r)
        rw [sentOf_nil, List.append_nil] at hsub
        exact ⟨ht.mono (List.Subset.trans hsub hh.asks_sublist.subset), List.forall_mem_nil _⟩
  refine ⟨key.1, (sentOf st.2).map (x'.now, ·), ?_, ?_⟩
  · rw [← hh.sent]
    rfl
  · intro z hz
    obtain ⟨w, hw, rfl⟩ := List.mem_map.1 hz
    exact key.2 w hw

theorem over_of_answer (ho : x.Orderly g f) (hl : x.session.Lone x.asks)
    (hr : z.2.1.EndedBy r) (hs : x.step? g (.answer z r) = some y) : y.Over z.2.1 := by
  obtain ⟨n, he, -⟩ | ⟨st, x', hst, hh, rfl⟩ := step_cases hs
  · cases he
  obtain ⟨t, ask, a, q⟩ := z
  cases hst
  cases ask with
  | lock id => exact ClientSession.not_plays_lockAnswer hr
  | probe => exact hr.elim
  | keepAlive k =>
    obtain ⟨e, rfl, he⟩ := hr
    have hmem : (.keepAlive k, a, q) ∈ x.asks := List.mem_map_of_mem (hh.answer _ _ rfl).1
    have hk := (ho.tidy.keepAlives k a q hmem).1
    have href := (hl.mono hh.asks_perm.symm.subperm).refused rfl hk he
    have hsub : (x'.take (x.session.answer (.keepAlive k) (.error e) x.now)).asks.Sublist
      (x'.asks ++ []) := asks_take x' _
    rw [List.append_nil] at hsub
    exact href.mono hsub.subset

theorem Over.run (h : x.Over ask) {es : List Event} (hr : x.run? g es = some y)
    (hnew : ∀ id op, ask = .lock id → .call id op ∉ es) :
    ∃ later, y.sent = x.sent ++ later ∧ ∀ z ∈ later, z.2.1 ≠ ask := by
  induction es generalizing x with
  | nil =>
    cases hr
    exact ⟨[], (List.append_nil _).symm, List.forall_mem_nil _⟩
  | cons e es ih =>
    obtain ⟨w, hw, hr⟩ := Option.bind_eq_some_iff.1 hr
    obtain ⟨hover, l, hl, hne⟩ := h.step hw fun id op ha he =>
      hnew id op ha (he ▸ List.mem_cons_self)
    obtain ⟨m, hm, hne'⟩ := ih hover hr fun id op ha hmem =>
      hnew id op ha (List.mem_cons_of_mem _ hmem)
    refine ⟨l ++ m, by rw [hm, hl, List.append_assoc], fun z hz => ?_⟩
    exact (List.mem_append.1 hz).elim (hne z) (hne' z)

end Career

end LockCell
