import LockCell.Proofs.Client.Gate
import LockCell.Proofs.Client.Outstanding
import Mathlib.Algebra.GroupWithZero.Nat

/-
  LockCell.Proofs.Client.Probing — a candidate that would take the session.

  In jeopardy the candidates are asked in the order of the list, each when the one before it
  has answered and not before. One that says yes at once is asked when all in front of it have
  answered, which takes no longer than their answers together; if the grace is longer than
  that, it saves the session, unless another of them never answers. The one that is silent is
  waited for to the end of the grace, and those behind it are not asked (`Starved`).

  `Hunts` lists all that a step can make of the search. As long as nobody has said yes, the
  search is in its first round and has not gone past the candidate (`Nearing`). So the grace
  runs out exactly if one in front of it is silent (`runsOut_iff_starved`), and that happens
  (`not_saved_of_silence`).
-/

namespace LockCell

namespace ClientSession

variable {s : ClientSession} {now d : Nat} {out : List Sent} {x : Step} {a b : Addr}

/-- All that a step can make of the search for a master. -/
inductive Hunts (s : ClientSession) (now : Nat) : Career.Event → Step → Prop
  /-- The one that is being asked is still awaited. -/
  | stays {e : Career.Event} {x : Step} : x.1.phase = s.phase → x.1.found = s.found →
      x.1.probe = s.probe → .probe ∉ cancelsOf x.2 →
      (∀ z r, e = .answer z r → z.2.1 = .probe → ∀ b t rest, s.probe ≠ .asking b t rest) →
      Hunts s now e x
  /-- The session is not in jeopardy after it. Without an answer the search goes on to the end
  of the grace. -/
  | ends {e : Career.Event} {x : Step} : (∀ d, x.1.phase ≠ .jeopardy d) →
      (∀ d, s.phase = .jeopardy d → s.found = none → e ≠ .close → d ≤ now) → Hunts s now e x
  | starts {x : Step} : s.phase = .active → x.1.probe = .idle → Hunts s now .goOn x
  | round : s.probe = .idle ∨ (∃ t, s.probe = .resting t) →
      Hunts s now .goOn (s.ask now s.candidates)
  | next {z : Nat × Sent} {r : Except Error Response} {b : Addr} {t : Nat} {rest : List Addr}
      {e : Error} : s.probe = .asking b t rest → z.2.1 = .probe → keptOf r = .error e →
      Hunts s now (.answer z r) (s.ask now rest)
  | finds {z : Nat × Sent} {r : Except Error Response} {x : Step} : x.1.found ≠ none →
      Hunts s now (.answer z r) x

theorem phase_ask (s : ClientSession) (now : Nat) (l : List Addr) :
    (s.ask now l).1.phase = s.phase := by
  cases l <;> rfl

theorem found_ask (s : ClientSession) (now : Nat) (l : List Addr) :
    (s.ask now l).1.found = s.found := by
  cases l <;> rfl

/-- Keep-alives have nothing to do with the search. -/
theorem hunts_renew {u : ClientSession} (hp : u.phase = s.phase) (hf : u.found = s.found)
    (hb : u.probe = s.probe) : s.Hunts now .goOn (u.renew now) := by
  unfold renew
  split
  · exact .stays hp hf hb (by simp) (fun _ _ he => nomatch he)
  · exact .stays hp hf hb (by simp) (fun _ _ he => nomatch he)

theorem hunts_take {g : Nat} {r : Except Error KeepAlive} {rest : List (Nat × Except Error KeepAlive)}
    (hp : s.phase = .active) : s.Hunts now .goOn ({ s with inbox := rest }.take g r now) := by
  unfold ClientSession.take
  split
  · exact hunts_renew rfl rfl rfl
  · dsimp only
    split
    · split
      · refine .ends (fun d hd => by cases hd) fun d hd => ?_
        cases hp.symm.trans hd
      · exact hunts_renew rfl rfl rfl
    · split
      · exact hunts_renew rfl rfl rfl
      · exact hunts_renew rfl rfl rfl

theorem hunts_watchStep? (h : s.Tidy now out) (hx : s.watchStep? now = some x) :
    s.Hunts now .goOn x := by
  cases WatchStep.of_watchStep? hx with
  | ends hc =>
    have hp := h.closedIff.1 hc
    refine .ends (fun d hd => ?_) fun d hd => ?_
    · cases hp.symm.trans hd
    · cases hp.symm.trans hd
  | hears hc hw => exact hunts_take (h.active_of_renewing hw hc)
  | falls hc hw => exact .starts (h.active_of_renewing hw hc) rfl
  | renews => exact hunts_renew rfl rfl rfl
  | refused _ _ hf =>
    refine .ends (fun d hd => by cases hd) fun d _ hn => ?_
    cases hf.symm.trans hn
  | recovers _ _ hf =>
    refine .ends (fun d hd => ?_) fun d _ hn => ?_
    · rw [recover_eq] at hd
      cases hd
    · cases hf.symm.trans hn
  | runsOut _ _ _ hp hd =>
    refine .ends (fun d hd => by cases hd) fun d' hp' _ _ => ?_
    cases hp.symm.trans hp'
    exact hd
  | asks _ _ _ _ hb => exact .round (hb.imp_right fun ⟨t, hb, _⟩ => ⟨t, hb⟩)

theorem hunts_step? (h : s.Tidy now out) (hx : s.step? now = some x) : s.Hunts now .goOn x := by
  rcases step?_cases hx with hx | ⟨-, c, -, hx⟩
  · exact hunts_watchStep? h hx
  · cases CallStep.of_callStep? hx with
    | returns | goes | fails => exact .stays rfl rfl rfl (by simp) (fun _ _ he => nomatch he)

theorem hunts_answer (s : ClientSession) (now : Nat) (z : Nat × Sent)
    (r : Except Error Response) : s.Hunts now (.answer z r) (s.answer z.2.1 r now) := by
  obtain ⟨t, ask, b, q⟩ := z
  have other : ask ≠ .probe → ∀ w r', Career.Event.answer (t, ask, b, q) r = .answer w r' →
      w.2.1 = .probe → ∀ b t rest, s.probe ≠ .asking b t rest := by
    intro hne w r' he hw
    cases he
    exact absurd hw hne
  cases ask with
  | keepAlive g => exact .stays rfl rfl rfl (by simp [answer]) (other (by simp))
  | probe =>
    show s.Hunts now _ (s.probeAnswer (keptOf r) now)
    unfold probeAnswer
    split
    · rename_i c u rest hb
      split
      · exact .finds (by simp)
      · exact .next hb rfl ‹_›
    · rename_i hb
      exact .stays rfl rfl rfl (by simp) fun _ _ _ _ => hb
  | lock id =>
    show s.Hunts now _ (s.lockAnswer id r now)
    unfold lockAnswer record
    repeat' split
    all_goals exact .stays rfl rfl rfl (by simp) (other (by simp))

theorem hunts_made? (h : s.Tidy now out) {e : Career.Event} (hx : e.made? s now = some x) :
    s.Hunts now e x := by
  cases e with
  | goOn => exact hunts_step? h hx
  | answer z r =>
    cases hx
    exact hunts_answer s now z r
  | call id op =>
    cases hx
    unfold call
    split <;> exact .stays rfl rfl rfl (by simp) (fun _ _ he => nomatch he)
  | abandon id =>
    cases hx
    refine .stays rfl rfl rfl ?_ (fun _ _ he => nomatch he)
    unfold abandon
    split <;> simp
  | close =>
    cases hx
    exact .ends (fun d hd => by cases hd) fun d _ _ hn => absurd rfl hn
  | pass => cases hx

end ClientSession

namespace Career

variable {g d : Nat} {f : LeaseConfig} {x x' y : Career} {e : Event} {st : ClientSession.Step}
  {a b : Addr} {τ : Addr → Nat} {past : List Addr} {t : Nat}

/-! ## What the candidates do -/

/-- What the candidates do when `e` comes: `a` takes the session as soon as it is asked, and any
other does as it likes, but if it answers at all it takes no longer than its time. -/
structure Serves (a : Addr) (τ : Addr → Nat) (x : Career) (e : Event) : Prop where
  atOnce : ∀ n, e = .pass n → n ≠ 0 → ∀ t q, (t, .probe, a, q) ∉ x.out
  granted : ∀ t q r, e = .answer (t, .probe, a, q) r → ∃ k, r = .ok (.kept k)
  inTime : ∀ t b q r, e = .answer (t, .probe, b, q) r → x.now ≤ t + τ b

/-- It holds of every event of a run at the point where it comes. -/
def AtEach (P : Career → Event → Prop) (g : Nat) (x : Career) : List Event → Prop
  | [] => True
  | e :: es => P x e ∧ ∀ y, x.step? g e = some y → y.AtEach P g es

/-- The session expires next, because it has found nobody in its grace. -/
def RunsOut (g : Nat) (x : Career) : Prop :=
  x.session.found = none ∧ ∃ y, x.step? g .goOn = some y ∧ y.session.phase = .expired

/-- `b` was asked at `t` and is awaited. Those in front of it have answered in time, and `a` is
not among them. -/
structure Awaits (a : Addr) (τ : Addr → Nat) (past : List Addr) (b : Addr) (t : Nat)
    (x : Career) : Prop where
  asking : ∃ rest, x.session.probe = .asking b t rest ∧ x.session.candidates = past ++ b :: rest
  out : ∃ q, (t, .probe, b, q) ∈ x.out
  before : a ∉ past
  inTime : t ≤ x.fell + (past.map τ).sum
  atOnce : b = a → x.now = t

/-- One in front of `a` is awaited for longer than it takes if it answers. -/
def Starved (a : Addr) (τ : Addr → Nat) (x : Career) : Prop :=
  ∃ past b t, x.Awaits a τ past b t ∧ b ≠ a ∧ t + τ b < x.now

/-! ## The end of the grace -/

theorem Orderly.searching (h : x.Orderly g f) (hp : x.session.phase = .jeopardy d) :
    x.session.watch = .searching ∧ x.session.closed = false := by
  refine ⟨h.tidy.jeopardy d hp, ?_⟩
  cases hc : x.session.closed with
  | false => rfl
  | true => cases (h.tidy.closedIff.1 hc).symm.trans hp

theorem runsOut_iff (h : x.Orderly g f) (hp : x.session.phase = .jeopardy d) :
    x.RunsOut g ↔ x.session.found = none ∧ d ≤ x.now := by
  obtain ⟨hw, hc⟩ := h.searching hp
  constructor
  · rintro ⟨hf, y, hy, he⟩
    refine ⟨hf, ?_⟩
    obtain ⟨n, hn, -⟩ | ⟨st, x', hst, hh, rfl⟩ := step_cases hy
    · cases hn
    · have he : st.1.phase = .expired := he
      cases ClientSession.hunts_made? h.tidy hst with
      | stays hs => cases (he.symm.trans hs).trans hp
      | ends _ hd => exact hd d hp hf nofun
      | starts ha => cases ha.symm.trans hp
      | round => cases (he.symm.trans (ClientSession.phase_ask _ _ _)).trans hp
  · rintro ⟨hf, hd⟩
    have hs : x.session.step? x.now = some x.session.expire.endWatch := by
      simp [ClientSession.step?, ClientSession.watchStep?, ClientSession.searchStep?, hw, hc, hf,
        hp, hd]
    exact ⟨hf, _, step?_goOn hs, rfl⟩

/-- A search that nobody has been asked in begins now. -/
theorem Orderly.probe_ne_idle (h : x.Orderly g f) (hs : x.Settled)
    (hp : x.session.phase = .jeopardy d) (hf : x.session.found = none) :
    x.session.probe ≠ .idle := by
  intro hb
  obtain ⟨hw, hc⟩ := h.searching hp
  have hd := h.lt_of_jeopardy hs hp
  have hs := watchStep?_of_settled hs
  simp [ClientSession.watchStep?, ClientSession.searchStep?, hw, hc, hf, hp, hb,
    Nat.not_le.2 hd] at hs

/-! ## The first round -/

theorem mem_out_hear? {z : Nat × Sent} (h : x.hear? e = some x') (hz : z ∈ x.out)
    (hne : ∀ r, e ≠ .answer z r) : z ∈ x'.out := by
  cases e with
  | answer w r =>
    obtain ⟨-, -, ho⟩ := (hears_of_hear? h).answer w r rfl
    rw [ho, List.mem_erase_of_ne]
    · exact hz
    · rintro rfl
      exact hne r rfl
  | goOn | call | abandon | close | pass =>
    cases h
    exact hz

/-- The next candidate is asked. -/
theorem awaits_ask {rest : List Addr} (hh : x.Hears e x')
    (hc : x.session.candidates = past ++ b :: rest) (ha : a ∉ past)
    (ht : x.now ≤ x.fell + (past.map τ).sum) :
    (x'.take (x.session.ask x.now (b :: rest))).Awaits a τ past b x.now where
  asking := ⟨rest, rfl, hc⟩
  out := by
    refine ⟨some (.keepAlive x.session.client (some x.session.held)), ?_⟩
    apply List.mem_append_right
    simp [ClientSession.ask, hh.now]
  before := ha
  inTime := by
    rw [hh.fell_take (Or.inl rfl)]
    exact ht
  atOnce _ := hh.now

/-- The first round begins with the first candidate. -/
theorem awaits_first (hh : x.Hears e x') (hm : a ∈ x.session.candidates) (hn : x.now = x.fell) :
    ∃ b, (x'.take (x.session.ask x.now x.session.candidates)).Awaits a τ [] b x.now := by
  cases hc : x.session.candidates with
  | nil =>
    rw [hc] at hm
    cases hm
  | cons b rest => exact ⟨b, awaits_ask hh hc List.not_mem_nil (Nat.le_of_eq hn)⟩

/-- Time passes while a candidate is awaited, unless it is the one that answers at once. -/
theorem Awaits.pass {n : Nat} (hw : x.Awaits a τ past b t) (hv : x.Serves a τ (.pass n)) :
    Awaits a τ past b t { x with now := x.now + n * g } where
  asking := hw.asking
  out := hw.out
  before := hw.before
  inTime := hw.inTime
  atOnce := by
    rintro rfl
    obtain ⟨q, hout⟩ := hw.out
    have hn : n = 0 := by
      by_contra hn
      exact hv.atOnce n rfl hn t q hout
    show x.now + n * g = t
    rw [hn, Nat.zero_mul, Nat.add_zero]
    exact hw.atOnce rfl

/-- What leaves the search alone leaves a candidate awaited. -/
theorem Awaits.stays (hw : x.Awaits a τ past b t) (hx' : x.hear? e = some x')
    (hb : st.1.probe = x.session.probe) (hcan : .probe ∉ cancelsOf st.2)
    (hne : ∀ z r, e = .answer z r → z.2.1 = .probe → ∀ b t rest, x.session.probe ≠ .asking b t rest)
    (hcands : st.1.candidates = x.session.candidates) (hfell : (x'.take st).fell = x.fell) :
    (x'.take st).Awaits a τ past b t := by
  obtain ⟨rest, hask, hcand⟩ := hw.asking
  obtain ⟨q, hout⟩ := hw.out
  have hnot : ∀ r, e ≠ .answer (t, .probe, b, q) r := by
    rintro r rfl
    exact hne _ r rfl rfl b t rest hask
  have hkept : (t, .probe, b, q) ∈ (x'.take st).out := by
    apply List.mem_append_left
    rw [List.mem_filter]
    exact ⟨mem_out_hear? hx' hout hnot, by simpa using hcan⟩
  refine ⟨⟨rest, hb.trans hask, hcands.trans hcand⟩, ⟨q, hkept⟩, hw.before, ?_, fun hba => ?_⟩
  · rw [hfell]
    exact hw.inTime
  · exact (hears_of_hear? hx').now.trans (hw.atOnce hba)

/-- The one that is awaited has answered, and not with yes; so it is not `a`, which is still to
come. -/
theorem Awaits.next {z : Nat × Sent} {r : Except Error Response} {err : Error} {rest : List Addr}
    (ho : x.Orderly g f) (hp : x.session.phase = .jeopardy d) (hm : a ∈ x.session.candidates)
    (hw : x.Awaits a τ past b t) (hv : x.Serves a τ (.answer z r)) (hh : x.Hears (.answer z r) x')
    (hb : x.session.probe = .asking b t rest) (hz : z.2.1 = .probe)
    (hk : ClientSession.keptOf r = .error err) :
    ∃ c, (x'.take (x.session.ask x.now rest)).Awaits a τ (past ++ [b]) c x.now := by
  obtain ⟨rest', hask, hcand⟩ := hw.asking
  cases hb.symm.trans hask
  -- it is this question that is answered, since no other is out
  obtain ⟨u, ask, c, q⟩ := z
  obtain rfl : ask = .probe := hz
  obtain ⟨hz, -, -⟩ := hh.answer _ _ rfl
  obtain ⟨rest', hask⟩ := ho.asked u c q (by simp [hp]) hz
  cases hb.symm.trans hask
  have hne : b ≠ a := by
    rintro rfl
    obtain ⟨k, rfl⟩ := hv.granted t q r rfl
    cases hk
  have hlater : x.now ≤ x.fell + ((past ++ [b]).map τ).sum := by
    have hle := hv.inTime t b q r rfl
    have hpast := hw.inTime
    simp only [List.map_append, List.sum_append, List.map_singleton, List.sum_singleton]
    omega
  have hafter : a ∉ past ++ [b] := by
    simp [hw.before, Ne.symm hne]
  cases rest with
  | nil =>
    rw [hcand] at hm
    exact absurd hm hafter
  | cons c rest =>
    refine ⟨c, awaits_ask hh ?_ hafter hlater⟩
    rw [hcand, List.append_assoc]
    rfl

/-- While nobody has said yes, the search has just begun, or waits for the first answer of one
that is not behind `a`. -/
def Nearing (a : Addr) (τ : Addr → Nat) (x : Career) : Prop :=
  ∀ d, x.session.phase = .jeopardy d → x.session.found = none →
    x.session.probe = .idle ∧ x.now = x.fell ∨ ∃ past b t, x.Awaits a τ past b t

theorem Nearing.step (ho : x.Orderly g f) (hm : a ∈ x.session.candidates) (h : x.Nearing a τ)
    (hv : x.Serves a τ e) (hs : x.step? g e = some y) : y.Nearing a τ := by
  intro d hp hf
  obtain ⟨n, rfl, hq, -, rfl⟩ | ⟨st, x', hst, hx', rfl⟩ := made_cases hs
  · rcases h d hp hf with ⟨hb, -⟩ | ⟨past, b, t, hw⟩
    · exact absurd hb (ho.probe_ne_idle hq hp hf)
    · exact Or.inr ⟨past, b, t, hw.pass hv⟩
  · have hh := hears_of_hear? hx'
    cases ClientSession.hunts_made? ho.tidy hst with
    | ends hne => exact absurd hp (hne d)
    | finds hne => exact absurd hf hne
    | starts ha hb =>
      refine Or.inl ⟨hb, ?_⟩
      rw [hh.fell_take_of_active ha hp]
      exact hh.now
    | stays hph hfd hb hc hne =>
      have hfell := hh.fell_take (Or.inl hph)
      rcases h d (hph ▸ hp) (hfd ▸ hf) with ⟨hi, hn⟩ | ⟨past, b, t, hw⟩
      · refine Or.inl ⟨hb.trans hi, ?_⟩
        rw [hfell]
        exact hh.now.trans hn
      · exact Or.inr ⟨past, b, t, hw.stays hx' hb hc hne (settings_step ho hs).2.2 hfell⟩
    | round hb =>
      have hp : x.session.phase = .jeopardy d := (ClientSession.phase_ask _ _ _).symm.trans hp
      have hf : x.session.found = none := (ClientSession.found_ask _ _ _).symm.trans hf
      rcases h d hp hf with ⟨-, hn⟩ | ⟨past, b, t, hw⟩
      · obtain ⟨b, hw⟩ := awaits_first hh hm hn
        exact Or.inr ⟨[], b, x.now, hw⟩
      · -- the search has not come to the end of the list
        obtain ⟨rest, hask, -⟩ := hw.asking
        rw [hask] at hb
        rcases hb with hb | ⟨u, hb⟩
        · cases hb
        · cases hb
    | @next z r b t rest err hb hz hk =>
      have hp : x.session.phase = .jeopardy d := (ClientSession.phase_ask _ _ _).symm.trans hp
      have hf : x.session.found = none := (ClientSession.found_ask _ _ _).symm.trans hf
      rcases h d hp hf with ⟨hi, -⟩ | ⟨past, b', t', hw⟩
      · cases hb.symm.trans hi
      · obtain ⟨rest', hask, -⟩ := hw.asking
        cases hb.symm.trans hask
        obtain ⟨c, hw⟩ := hw.next ho hp hm hv hh hb hz hk
        exact Or.inr ⟨past ++ [b], c, x.now, hw⟩

theorem Nearing.run (ho : x.Orderly g f) (hm : a ∈ x.session.candidates) (h : x.Nearing a τ)
    {es : List Event} (hv : x.AtEach (Serves a τ) g es) (hr : x.run? g es = some y) :
    y.Nearing a τ := by
  induction es generalizing x with
  | nil =>
    cases hr
    exact h
  | cons e es ih =>
    obtain ⟨w, hw, hr⟩ : ∃ w, x.step? g e = some w ∧ w.run? g es = some y :=
      Option.bind_eq_some_iff.1 hr
    obtain ⟨he, hes⟩ := hv
    have hmw : a ∈ w.session.candidates := by
      rw [(settings_step ho hw).2.2]
      exact hm
    exact ih (ho.step hw) hmw (h.step ho hm he hw) (hes w hw) hr

/-- **Only one that is silent can starve the search.** A session is active, and its lease runs
out. From then on, one of the candidates takes it as soon as it is asked; the others do as they
like, and those that answer take no longer than their times, which make up less than the grace.
Then the session expires for want of a master exactly if the grace has passed while one in front
of that candidate was awaited and has not answered. -/
theorem runsOut_iff_starved (cfg : ClientConfig) (server : Addr) {begun now : Nat}
    (hb : begun ≤ now) (hn : g ∣ now) {es es' : List Event} {x₀ : Career}
    (hr₀ : (start cfg server begun now).run? g es = some x₀) (ha : x₀.session.phase = .active)
    (hm : a ∈ cfg.servers) (hv : x₀.AtEach (Serves a τ) g es') (hr : x₀.run? g es' = some x)
    (hp : x.session.phase = .jeopardy d) (hlong : x.fell + (cfg.servers.map τ).sum < d) :
    x.RunsOut g ↔ d ≤ x.now ∧ x.Starved a τ := by
  have hs := orderly_start cfg server hb hn
  have ho₀ := hs.run hr₀
  have ho := ho₀.run hr
  have hc₀ : x₀.session.candidates = cfg.servers := (settings_run hs hr₀).2.2
  have hc : x.session.candidates = cfg.servers := (settings_run ho₀ hr).2.2.trans hc₀
  have near : x.Nearing a τ := by
    refine Nearing.run ho₀ (hc₀ ▸ hm) ?_ hv hr
    intro d hd
    cases ha.symm.trans hd
  rw [runsOut_iff ho hp]
  constructor
  · rintro ⟨hf, hd⟩
    refine ⟨hd, ?_⟩
    rcases near d hp hf with ⟨-, hn⟩ | ⟨past, b, t, hw⟩
    · omega
    · obtain ⟨rest, -, hcand⟩ := hw.asking
      have hsum : (past.map τ).sum + τ b ≤ (cfg.servers.map τ).sum := by
        rw [← hc, hcand]
        simp only [List.map_append, List.map_cons, List.sum_append, List.sum_cons]
        omega
      have hle := hw.inTime
      have hne : b ≠ a := by
        intro hba
        have hnow := hw.atOnce hba
        omega
      exact ⟨past, b, t, hw, hne, by omega⟩
  · rintro ⟨hd, past, b, t, hw, -, -⟩
    obtain ⟨rest, hask, -⟩ := hw.asking
    refine ⟨?_, hd⟩
    by_contra hf
    cases hask.symm.trans (ho.tidy.foundIdle (by simp [hp]) hf)

theorem serves_goOn (a : Addr) (τ : Addr → Nat) (x : Career) : x.Serves a τ .goOn where
  atOnce _ he := nomatch he
  granted _ _ _ he := nomatch he
  inTime _ _ _ _ he := nomatch he

theorem serves_pass {n : Nat} (h : ∀ t q, (t, .probe, a, q) ∉ x.out) (τ : Addr → Nat) :
    x.Serves a τ (.pass n) where
  atOnce _ _ _ := h
  granted _ _ _ he := nomatch he
  inTime _ _ _ _ he := nomatch he

/-- The first of two candidates accepts the question and never answers; the other would take the
session at once. -/
def pair : ClientConfig := ⟨"x", ["b:1", "a:1"], .fast⟩

/-- The grace of the session passes. -/
theorem silence : ∃ x₀ x, (start pair "a:1" 0 0).run? Clock.milli [.goOn, .pass 1000] = some x₀ ∧
    x₀.session.phase = .active ∧
    x₀.AtEach (Serves "a:1" fun _ => 0) Clock.milli [.goOn, .goOn, .pass 3000] ∧
    x₀.run? Clock.milli [.goOn, .goOn, .pass 3000] = some x ∧
    x.session.phase = .jeopardy (ms 4000) ∧ x.fell = ms 1000 ∧ x.RunsOut Clock.milli := by
  have hr₀ : ((start pair "a:1" 0 0).run? Clock.milli [.goOn, .pass 1000]).any (fun x₀ =>
      x₀.session.phase == .active &&
        (x₀.run? Clock.milli [.goOn, .goOn]).all (fun w => w.out.all (·.2.2.1 != "a:1")) &&
        (x₀.run? Clock.milli [.goOn, .goOn, .pass 3000]).any fun x =>
          x.session.phase == .jeopardy (ms 4000) && x.fell == ms 1000 &&
            x.session.found.isNone &&
            (x.step? Clock.milli .goOn).any (·.session.phase == .expired)) = true := by
    decide +kernel
  simp only [Option.any_eq_true, Option.all_eq_true, Bool.and_eq_true, beq_iff_eq,
    Option.isNone_iff_eq_none] at hr₀
  obtain ⟨x₀, hx₀, ⟨ha, hout⟩, x, hx, ⟨⟨hp, hfell⟩, hf⟩, y, hy, he⟩ := hr₀
  refine ⟨x₀, x, hx₀, ha, ?_, hx, hp, hfell, hf, y, hy, he⟩
  refine ⟨serves_goOn _ _ _, fun u hu => ⟨serves_goOn _ _ _, fun w hw => ⟨?_, fun _ _ => trivial⟩⟩⟩
  have hw : x₀.run? Clock.milli [.goOn, .goOn] = some w := by
    simp [run?, hu, hw]
  refine serves_pass (fun t q hm => ?_) _
  have hne := List.all_eq_true.1 (hout w hw) _ hm
  simp at hne

theorem runsOut_iff_starved_of_silence : ∃ x₀ x, 0 ≤ 0 ∧ Clock.milli ∣ 0 ∧
    (start pair "a:1" 0 0).run? Clock.milli [.goOn, .pass 1000] = some x₀ ∧
    x₀.session.phase = .active ∧ "a:1" ∈ pair.servers ∧
    x₀.AtEach (Serves "a:1" fun _ => 0) Clock.milli [.goOn, .goOn, .pass 3000] ∧
    x₀.run? Clock.milli [.goOn, .goOn, .pass 3000] = some x ∧
    x.session.phase = .jeopardy (ms 4000) ∧
    x.fell + (pair.servers.map fun _ => 0).sum < ms 4000 ∧
    x.RunsOut Clock.milli ∧ ms 4000 ≤ x.now ∧ x.Starved "a:1" fun _ => 0 := by
  obtain ⟨x₀, x, hr₀, ha, hv, hr, hp, hfell, ho⟩ := silence
  have hlong : x.fell + (pair.servers.map fun _ => 0).sum < ms 4000 := by
    rw [hfell]
    decide
  have hm : "a:1" ∈ pair.servers := by decide
  have h := runsOut_iff_starved pair "a:1" (Nat.le_refl 0) (Nat.dvd_zero _) hr₀ ha hm hv hr hp hlong
  exact ⟨x₀, x, Nat.le_refl 0, Nat.dvd_zero _, hr₀, ha, hm, hv, hr, hp, hlong, ho, h.1 ho⟩

/-- A candidate that takes the session as soon as it is asked need not save it, though the grace
is longer than a pause and all answers together. -/
theorem not_saved_of_silence : ¬ ∀ (g : Nat) (cfg : ClientConfig) (server a : Addr)
    (τ : Addr → Nat) (begun now d : Nat) (es es' : List Event) (x₀ x : Career), 0 < g →
    begun ≤ now → g ∣ now → (start cfg server begun now).run? g es = some x₀ →
    x₀.session.phase = .active → a ∈ cfg.servers → x₀.AtEach (Serves a τ) g es' →
    x₀.run? g es' = some x → x.session.phase = .jeopardy d →
    x.fell + (cfg.lease.probe + (cfg.servers.map τ).sum) < d → ¬ x.RunsOut g := by
  intro h
  obtain ⟨x₀, x, hr₀, ha, hv, hr, hp, hfell, ho⟩ := silence
  have hlong : x.fell + (pair.lease.probe + (pair.servers.map fun _ => 0).sum) < ms 4000 := by
    rw [hfell]
    decide
  exact h Clock.milli pair "a:1" "a:1" (fun _ => 0) 0 0 (ms 4000) _ _ x₀ x (by decide)
    (Nat.le_refl 0) (Nat.dvd_zero _) hr₀ ha (by decide) hv hr hp hlong ho

end Career

end LockCell
