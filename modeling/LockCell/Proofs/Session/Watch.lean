import LockCell.Session.Locks

/-
  LockCell.Proofs.Session.Watch — the watch of a session never comes late.

  The clock stands on the multiples of a unit, and a timer fires at the first of them at or
  after its instant (`Clock.ceil`; `Clock.tick` has the unit of a millisecond). It goes on only
  when nothing can happen in the session (`Session.quiet`), and never past its alarm. The
  spans of the lease are in whole units (`LeaseConfig.Fits`).

  `target` is what the watch waits for: the warning, or the deadline once it has warned of
  that. At every instant of such a run (`Timed`)
  - the deadline has not been passed, nor has the warning while a keep-alive is parked: an
    extension that comes late may leave the next warning behind, but then the keep-alive that
    took it is gone;
  - a renewal is pending exactly if the deadline has been warned of, and whatever was warned
    of before is behind the present deadline, so no deadline is warned of twice.

  At one instant the watch and the parked keep-alives have only so much to do
  (`work_lt_of_look`, `work_lt_of_answer`), so that the clock is never held up for good.
-/

namespace LockCell

namespace Clock

/-- The first multiple of `g` at or after `t`. -/
def ceil (g t : Nat) : Nat := (t + (g - 1)) / g * g

theorem tick_eq_ceil (t : Nat) : tick t = ceil milli t := rfl

theorem le_ceil {g : Nat} (hg : 0 < g) (t : Nat) : t ≤ ceil g t := by
  have h := Nat.div_add_mod (t + (g - 1)) g
  have hm := Nat.mod_lt (t + (g - 1)) hg
  rw [Nat.mul_comm] at h
  unfold ceil
  omega

theorem ceil_le {g t u : Nat} (hg : 0 < g) (hu : g ∣ u) (h : t ≤ u) : ceil g t ≤ u := by
  obtain ⟨n, rfl⟩ := hu
  have hlt : (t + (g - 1)) / g < n + 1 := by
    rw [Nat.div_lt_iff_lt_mul hg, Nat.succ_mul, Nat.mul_comm n g]
    omega
  unfold ceil
  rw [Nat.mul_comm g n]
  exact Nat.mul_le_mul_right g (Nat.le_of_lt_succ hlt)

end Clock

/-- A warning comes before the end of every lease, an extension and a nap are some time, and
the spans are in whole units `g`. -/
structure LeaseConfig.Fits (f : LeaseConfig) (g : Nat) : Prop where
  warning_pos : 0 < f.warning
  warning_lt : f.warning < f.length
  extension_pos : 0 < f.extension
  tick_pos : 0 < f.tick
  length_dvd : g ∣ f.length
  extension_dvd : g ∣ f.extension
  warning_dvd : g ∣ f.warning

namespace Session

variable {g now : Nat} {f : LeaseConfig} {s s' : Session}

/-- What the watch waits for. -/
def target (s : Session) : Nat :=
  if s.warned = some s.deadline then s.deadline else s.deadline - s.config.warning

theorem nextLook_eq (s : Session) (now : Nat) :
    s.nextLook now = min s.target (now + s.config.tick) := rfl

theorem target_of_warned (h : s.warned = some s.deadline) : s.target = s.deadline := if_pos h

theorem target_of_not_warned (h : s.warned ≠ some s.deadline) :
    s.target = s.deadline - s.config.warning := if_neg h

/-- The watch has nothing to do. -/
def asleep (s : Session) (now : Nat) : Bool :=
  match s.look now with
  | .asleep => true
  | _ => false

/-- Nothing can happen at this instant: the watch sleeps, and no parked keep-alive can be
answered. -/
def quiet (s : Session) (now : Nat) : Bool := s.asleep now && s.answer?.isNone

theorem asleep_iff : s.asleep now = true ↔ s.look now = .asleep := by
  unfold asleep
  cases s.look now <;> simp

theorem answer?_eq_none_iff : s.answer? = none ↔ ∀ t ∈ s.parked, s.settled? t = none := by
  simp [answer?]

theorem quiet_iff :
    s.quiet now = true ↔ s.look now = .asleep ∧ ∀ t ∈ s.parked, s.settled? t = none := by
  rw [quiet, Bool.and_eq_true, asleep_iff, Option.isNone_iff_eq_none, answer?_eq_none_iff]

/-- The answer that comes first is one of those that a parked keep-alive can be given. -/
theorem settled?_of_answer? {t : Nat} {a : KeepAlive} (h : s.answer? = some (t, a, s')) :
    t ∈ s.parked ∧ ∃ u, s.settled? t = some (a, u) ∧ s' = u.abandon t := by
  obtain ⟨t', ht', hu⟩ := List.exists_of_findSome?_eq_some h
  obtain ⟨⟨b, u⟩, hb, e⟩ := Option.map_eq_some_iff.1 hu
  cases e
  exact ⟨ht', u, hb, rfl⟩

/-! ## What a look and an answer are -/

theorem look_of_sleep (hm : s.moved = false) (hw : now < s.wake) : s.look now = .asleep := by
  unfold look
  split
  · rfl
  · simp [hm]

/-- A watch that wakes up sets its alarm; before that it gives the warning if it is due. -/
theorem look_cases (h : s.look now = .awake s') :
    s.ended = false ∧
      (s' = s.aim now ∧ (s.moved = true ∨
        s.moved = false ∧ s.wake ≤ now ∧ now < s.deadline ∧ s.warnable now = false) ∨
      s' = s.warn.aim now ∧ s.moved = false ∧ s.wake ≤ now ∧ now < s.deadline ∧
        s.warnable now = true) := by
  unfold look at h
  split at h
  · cases h
  · rename_i he
    refine ⟨by simpa using he, ?_⟩
    split at h
    · rename_i hm
      cases h
      exact .inl ⟨rfl, .inl hm⟩
    · rename_i hm
      have hm : s.moved = false := by simpa using hm
      split at h
      · cases h
      · rename_i hw
        split at h
        · cases h
        · rename_i hd
          split at h
          · rename_i hwarn
            cases h
            exact .inr ⟨rfl, hm, by omega, by omega, hwarn⟩
          · rename_i hwarn
            split at h
            · cases h
            · cases h
              exact .inl ⟨rfl, .inr ⟨hm, by omega, by omega, by simpa using hwarn⟩⟩

theorem warnable_iff : s.warnable now = true ↔
    s.deadline - now ≤ s.config.warning ∧ s.warned ≠ some s.deadline := by
  simp [warnable]

/-- Before the deadline, and without a warning that is due, the watch waits for something
that is to come. -/
theorem lt_target (hd : now < s.deadline) (hw : s.warnable now = false) : now < s.target := by
  unfold target
  split
  · exact hd
  · rename_i hn
    have : ¬ s.deadline - now ≤ s.config.warning := fun h => by
      rw [warnable_iff.2 ⟨h, hn⟩] at hw
      cases hw
    omega

theorem look_over (h : s.look now = .over) :
    s.ended = false ∧ s.moved = false ∧ s.wake ≤ now ∧ s.deadline ≤ now := by
  unfold look at h
  repeat' split at h
  all_goals cases h
  simp_all

/-- A watch that sleeps has been set and its alarm is to come. -/
theorem sleep_of_look (ht : 0 < s.config.tick) (he : s.ended = false)
    (h : s.look now = .asleep) : s.moved = false ∧ now < s.wake := by
  unfold look at h
  rw [if_neg (by simp [he])] at h
  split at h
  · cases h
  · rename_i hm
    refine ⟨by simpa using hm, ?_⟩
    split at h
    · assumption
    · split at h
      · cases h
      · rename_i hd
        split at h
        · cases h
        · rename_i hwarn
          split at h
          · -- an alarm that has passed would have been set for a later instant
            rename_i hn
            have : now < s.target := lt_target (by omega) (by simpa using hwarn)
            rw [nextLook_eq] at hn
            omega
          · cases h

/-- How a keep-alive is answered, if it is. -/
theorem settled?_cases {t : Nat} {a : KeepAlive} (h : s.settled? t = some (a, s')) :
    (s.ended = true ∧ a = ⟨s.lease, true⟩ ∧ s' = s) ∨
    (s.ended = false ∧ t ≠ s.arrived ∧ a = ⟨s.lease, false⟩ ∧ s' = s) ∨
    (s.ended = false ∧ t = s.arrived ∧ s.renewal = true ∧ a = ⟨s.extend.lease, false⟩ ∧
      s' = s.extend) := by
  unfold settled? at h
  split at h
  · rename_i he
    cases h
    exact .inl ⟨he, rfl, rfl⟩
  · rename_i he
    have he : s.ended = false := by simpa using he
    split at h
    · rename_i ht
      cases h
      exact .inr (.inl ⟨he, ht, rfl, rfl⟩)
    · rename_i ht
      split at h
      · rename_i hr
        cases h
        exact .inr (.inr ⟨he, by simpa using ht, hr, rfl, rfl⟩)
      · cases h

/-- An answer is for one keep-alive and does not touch the others. -/
theorem parked_of_settled? {t : Nat} {a : KeepAlive} (h : s.settled? t = some (a, s')) :
    s'.parked = s.parked ∧ s'.arrived = s.arrived := by
  obtain ⟨-, -, rfl⟩ | ⟨-, -, -, rfl⟩ | ⟨-, -, -, -, rfl⟩ := settled?_cases h <;> exact ⟨rfl, rfl⟩

theorem settled?_eq_none_iff {t : Nat} :
    s.settled? t = none ↔ s.ended = false ∧ t = s.arrived ∧ s.renewal = false := by
  unfold settled?
  repeat' split
  all_goals simp_all

/-! ## A run on time -/

/-- The session is on time. -/
structure Timed (g : Nat) (f : LeaseConfig) (s : Session) (now : Nat) : Prop where
  config : s.config = f
  now_dvd : g ∣ now
  start_dvd : g ∣ s.start
  lease_dvd : g ∣ s.lease
  length_le : f.length ≤ s.lease
  renewal_iff : s.ended = false → (s.renewal = true ↔ s.warned = some s.deadline)
  warned_le : ∀ d, s.warned = some d → d ≤ now + f.warning ∧ d ≤ s.deadline
  wake_le : s.ended = false → s.moved = false → s.wake ≤ s.target
  now_le : s.ended = false → now ≤ s.deadline
  prompt : s.ended = false → s.parked ≠ [] → s.warned ≠ some s.deadline →
    now ≤ s.deadline - f.warning

theorem timed_begin (hf : f.Fits g) (c : Client) (hn : g ∣ now) :
    Timed g f (begin c f now) now where
  config := rfl
  now_dvd := hn
  start_dvd := hn
  lease_dvd := hf.length_dvd
  length_le := Nat.le_refl _
  renewal_iff _ := by simp [begin]
  warned_le d h := by simp [begin] at h
  wake_le _ h := by simp [begin] at h
  now_le _ := Nat.le_add_right _ _
  prompt _ h := absurd rfl h

theorem Timed.aim (h : s.Timed g f now) : (s.aim now).Timed g f now :=
  { h with wake_le := fun _ _ => Nat.min_le_left _ _ }

theorem Timed.warn (h : s.Timed g f now) (hd : now < s.deadline)
    (hw : s.deadline - now ≤ s.config.warning) : (s.warn.aim now).Timed g f now :=
  { h with
    renewal_iff := fun _ => ⟨fun _ => rfl, fun _ => rfl⟩
    warned_le := fun d e => by
      have hc := h.config
      cases e
      rw [← hc]
      exact ⟨by omega, Nat.le_refl _⟩
    wake_le := fun _ _ => Nat.min_le_left _ _
    prompt := fun _ _ hn => absurd rfl hn }

theorem Timed.close (h : s.Timed g f now) : s.close.Timed g f now :=
  { h with
    renewal_iff := nofun
    wake_le := nofun
    now_le := nofun
    prompt := nofun }

/-- In a session where nothing can happen the warning is to come, or it has been given. -/
theorem Timed.lt_of_quiet (hf : f.Fits g) (h : s.Timed g f now) (he : s.ended = false)
    (hq : s.quiet now = true) :
    s.moved = false ∧ now < s.wake ∧
      (s.warned ≠ some s.deadline → now < s.deadline - f.warning) := by
  have ht : 0 < s.config.tick := h.config ▸ hf.tick_pos
  obtain ⟨hm, hw⟩ := sleep_of_look ht he (quiet_iff.1 hq).1
  refine ⟨hm, hw, fun hn => ?_⟩
  have := h.wake_le he hm
  rw [target_of_not_warned hn, h.config] at this
  omega

/-- Whoever is parked when nothing can happen is the newest, and nothing was let through. -/
theorem waiting_of_quiet (hq : s.quiet now = true) {t : Nat} (ht : t ∈ s.parked) :
    s.ended = false ∧ t = s.arrived ∧ s.renewal = false :=
  settled?_eq_none_iff.1 ((quiet_iff.1 hq).2 t ht)

theorem Timed.arrive (hf : f.Fits g) (h : s.Timed g f now) (hq : s.quiet now = true) :
    s.arrive.Timed g f now :=
  { h with
    prompt := fun he _ hn => Nat.le_of_lt ((h.lt_of_quiet hf he hq).2.2 hn) }

theorem Timed.abandon (h : s.Timed g f now) (t : Nat) : (s.abandon t).Timed g f now :=
  { h with
    prompt := fun he hp => h.prompt he fun e => hp (by simp [Session.abandon, e]) }

theorem deadline_extend (s : Session) : s.extend.deadline = s.deadline + s.config.extension :=
  (Nat.add_assoc _ _ _).symm

/-- A renewal is taken by the last keep-alive that is parked. -/
theorem Timed.extend (hf : f.Fits g) (h : s.Timed g f now) (he : s.ended = false)
    (hr : s.renewal = true) {t : Nat} (ht : s.parked.erase t = []) :
    (s.extend.abandon t).Timed g f now := by
  have hx := deadline_extend s
  have hc := h.config
  rw [hc] at hx
  have hpos := hf.extension_pos
  have hw := (h.renewal_iff he).1 hr
  have hle := h.now_le he
  -- what was warned of is the deadline as it was
  have hne : s.warned ≠ some s.extend.deadline := by
    intro e
    have e : s.deadline = s.extend.deadline := Option.some.inj (hw.symm.trans e)
    omega
  exact {
    config := hc
    now_dvd := h.now_dvd
    start_dvd := h.start_dvd
    lease_dvd := Nat.dvd_add h.lease_dvd (hc ▸ hf.extension_dvd)
    length_le := Nat.le_trans h.length_le (Nat.le_add_right _ _)
    renewal_iff := fun _ => ⟨nofun, fun e => absurd e hne⟩
    warned_le := fun d e => by
      have := h.warned_le d e
      exact ⟨this.1, Nat.le_trans this.2 (hx ▸ Nat.le_add_right _ _)⟩
    wake_le := nofun
    now_le := fun _ => Nat.le_trans hle (hx ▸ Nat.le_add_right _ _)
    prompt := fun _ hp => absurd ht hp }

theorem Timed.refresh (hf : f.Fits g) (h : s.Timed g f now) :
    (s.refresh now).Timed g f now := by
  have hc := h.config
  have hlt := hf.warning_lt
  have hd : (s.refresh now).deadline = now + f.length := by
    rw [← hc]
    rfl
  have hold : ∀ d, s.warned = some d → d < now + f.length := fun d e => by
    have := h.warned_le d e
    omega
  exact {
    config := hc
    now_dvd := h.now_dvd
    start_dvd := h.now_dvd
    lease_dvd := by
      show g ∣ s.config.length
      rw [hc]
      exact hf.length_dvd
    length_le := Nat.le_of_eq (congrArg LeaseConfig.length hc.symm)
    renewal_iff := fun _ => ⟨nofun, fun e => by
      have := hold _ e
      omega⟩
    warned_le := fun d e => ⟨(h.warned_le d e).1, hd ▸ Nat.le_of_lt (hold d e)⟩
    wake_le := nofun
    now_le := fun _ => hd ▸ Nat.le_add_right _ _
    prompt := fun _ _ _ => by
      rw [hd]
      omega }

/-- The clock goes on to the next alarm at most, and the session is still on time. -/
theorem Timed.pass (hg : 0 < g) (hf : f.Fits g) (h : s.Timed g f now) (hq : s.quiet now = true)
    {n : Nat} (hn : s.ended = false → now + n * g ≤ Clock.ceil g s.wake) :
    s.Timed g f (now + n * g) := by
  have hc := h.config
  have hd : g ∣ s.deadline := Nat.dvd_add h.start_dvd h.lease_dvd
  have hw : g ∣ s.deadline - f.warning := Nat.dvd_sub hd hf.warning_dvd
  have ht : g ∣ s.target := by
    unfold target
    split
    · exact hd
    · rw [hc]
      exact hw
  have hle : s.ended = false → now + n * g ≤ s.target := fun he =>
    Nat.le_trans (hn he) (Clock.ceil_le hg ht (h.wake_le he (h.lt_of_quiet hf he hq).1))
  exact { h with
    now_dvd := Nat.dvd_add h.now_dvd (Nat.dvd_mul_left g n)
    warned_le := fun d e => by
      have := h.warned_le d e
      omega
    now_le := fun he => by
      have := hle he
      unfold target at this
      split at this <;> omega
    prompt := fun he _ hw => by
      have := hle he
      rwa [target_of_not_warned hw, hc] at this }

/-! ## What is left to do at an instant -/

/-- How often the watch may still look at this instant, at most. -/
def looks (s : Session) (now : Nat) : Nat :=
  if s.ended then 0
  else if s.moved then 3
  else if now < s.wake then 0
  else if s.warned = some s.deadline then 1
  else 2

/-- Looks and answers still to come at this instant, at most. -/
def work (s : Session) (now : Nat) : Nat := 4 * s.parked.length + s.looks now

theorem looks_le (s : Session) (now : Nat) : s.looks now ≤ 3 := by
  unfold looks
  repeat' split
  all_goals omega

theorem work_lt_of_over (h : s.look now = .over) : s.close.work now < s.work now := by
  obtain ⟨he, hm, hw, -⟩ := look_over h
  have : 0 < s.looks now := by
    unfold looks
    rw [if_neg (by simp [he]), if_neg (by simp [hm]), if_neg (by omega)]
    split <;> omega
  have hc : s.close.looks now = 0 := rfl
  rw [work, work, hc]
  exact Nat.add_lt_add_left this _

/-- Once it has been set, the watch has an alarm to come or less to do. -/
theorem work_lt_of_look (ht : 0 < s.config.tick) (h : s.look now = .awake s') :
    s'.work now < s.work now := by
  have hp : s'.parked = s.parked := by
    obtain ⟨-, ⟨rfl, -⟩ | ⟨rfl, -⟩⟩ := look_cases h <;> rfl
  have hl : s'.looks now < s.looks now := by
    have hzero : ∀ u : Session, u.config = s.config → now < u.target → (u.aim now).looks now = 0 :=
      fun u hu hw => by
        have : now < (u.aim now).wake := by
          show now < u.nextLook now
          rw [nextLook_eq, hu]
          omega
        unfold looks
        rw [if_pos this]
        repeat' split
        all_goals first | rfl | simp_all [Session.aim]
    obtain ⟨he, ⟨rfl, hm | ⟨hm, hw, hd, hn⟩⟩ | ⟨rfl, hm, hw, hd, hn⟩⟩ := look_cases h
    · simp only [looks, Session.aim, he, hm, Bool.false_eq_true, if_false, if_true]
      repeat' split
      all_goals omega
    · rw [hzero s rfl (lt_target hd hn)]
      simp only [looks, he, hm, Bool.false_eq_true, if_false, if_neg (Nat.not_lt.2 hw)]
      split <;> omega
    · have ht : now < s.warn.target := by
        rw [target_of_warned rfl]
        exact hd
      rw [hzero s.warn rfl ht]
      simp only [looks, he, hm, Bool.false_eq_true, if_false, if_neg (Nat.not_lt.2 hw)]
      split <;> omega
  rw [work, work, hp]
  exact Nat.add_lt_add_left hl _

theorem work_lt_of_answer {t : Nat} {a : KeepAlive} (hp : t ∈ s.parked)
    (h : s.settled? t = some (a, s')) : (s'.abandon t).work now < s.work now := by
  have hl : (s'.parked.erase t).length + 1 = s.parked.length := by
    rw [(parked_of_settled? h).1, List.length_erase_of_mem hp]
    have := List.length_pos_of_mem hp
    omega
  have hk : (s'.abandon t).looks now ≤ s.looks now + 3 := Nat.le_trans (looks_le _ _) (by omega)
  have hw : (s'.abandon t).work now =
      4 * (s'.parked.erase t).length + (s'.abandon t).looks now := rfl
  rw [hw, work]
  omega

end Session

end LockCell
