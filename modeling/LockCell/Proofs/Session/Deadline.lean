import LockCell.Proofs.Session.Rendezvous

/-
  LockCell.Proofs.Session.Deadline — a lease that is let run out ends at its deadline.

  Nothing is asked of the spans here but that the watch sleeps for some time. Extensions
  may add nothing, the warning may come before the lease began, and a refresh may bring the
  deadline nearer; calls come at any time, before or after what else is to happen at an
  instant. Only the clock waits: it goes on when nothing can happen in the session, and not
  past the first multiple of its unit at or after the alarm.

  A watch that has been set wakes up at its target, which is not after the deadline, and
  whoever moves the deadline has the watch set anew. So the clock never passes the first of
  its instants at or after the deadline (`OnTime`), the watch does not end the session before
  the deadline, and the end comes at exactly that instant (`ends_at_deadline`). On a clock
  whose unit divides the spans, as one that counts nanoseconds does, that is the deadline.
-/

namespace LockCell

namespace Clock

variable {g t u : Nat}

theorem dvd_ceil (g t : Nat) : g ∣ ceil g t := Nat.dvd_mul_left g _

theorem ceil_mono (hg : 0 < g) (h : t ≤ u) : ceil g t ≤ ceil g u :=
  ceil_le hg (dvd_ceil g u) (Nat.le_trans h (le_ceil hg u))

theorem ceil_of_dvd (hg : 0 < g) (h : g ∣ t) : ceil g t = t :=
  Nat.le_antisymm (ceil_le hg h (Nat.le_refl t)) (le_ceil hg t)

end Clock

theorem Session.nextLook_le_deadline (s : Session) (now : Nat) : s.nextLook now ≤ s.deadline := by
  have ht : s.target ≤ s.deadline := by
    unfold target
    split
    · exact Nat.le_refl _
    · exact Nat.sub_le _ _
  rw [nextLook_eq]
  omega

/-- A session under a clock. -/
structure Tenure where
  session : Session
  now : Nat

namespace Tenure

inductive Event where
  | keepAlive
  | abandon (ticket : Nat)
  | refresh
  /-- A lock call, over the table and the store as others have left them. -/
  | call (node : Node) (locks : Locks Cluster) (op : LockOp)
  | terminate
  | look
  | answer (ticket : Nat)
  /-- The clock goes on by so many units. -/
  | pass (units : Nat)

/-- It happens by itself. -/
def Event.Inner : Event → Prop
  | .look | .answer _ => True
  | _ => False

/-- It takes no time. -/
def Event.Prompt : Event → Prop
  | .pass _ => False
  | _ => True

def start (f : LeaseConfig) (c : Client) (now : Nat) : Tenure := ⟨.begin c f now, now⟩

def quiet (x : Tenure) : Bool := x.session.quiet x.now

/-- What comes of an event, or `none` if it is out of turn: the watch sleeps, the keep-alive
cannot be answered, or the clock would pass something. -/
def step? (g : Nat) (x : Tenure) : Event → Option Tenure
  | .keepAlive => some { x with session := x.session.arrive }
  | .abandon t => some { x with session := x.session.abandon t }
  | .refresh =>
    match x.session.refresh? x.now with
    | .error _ => some x
    | .ok s => some { x with session := s }
  | .call n l op => some { x with session := (x.session.call (Cluster.storeOf n) l op).2.1 }
  | .terminate => some (if x.session.ended then x else { x with session := x.session.close })
  | .look =>
    match x.session.look x.now with
    | .asleep => none
    | .awake s => some { x with session := s }
    | .over => some { x with session := x.session.close }
  | .answer t =>
    if t ∈ x.session.parked then
      (x.session.settled? t).map fun (_, s) => { x with session := s.abandon t }
    else none
  | .pass n =>
    if x.quiet ∧ (x.session.ended ∨ x.now + n * g ≤ Clock.ceil g x.session.wake) then
      some { x with now := x.now + n * g }
    else none

def run? (g : Nat) (x : Tenure) (es : List Event) : Option Tenure := es.foldlM (step? g) x

/-- All that a step can be. -/
inductive Step (g : Nat) (x : Tenure) : Event → Tenure → Prop
  /-- The deadline stays, and so does the alarm. -/
  | aside {e : Event} (s : Session) : s.config = x.session.config → s.start = x.session.start →
      s.lease = x.session.lease → s.ended = x.session.ended → s.moved = x.session.moved →
      s.wake = x.session.wake → Step g x e { x with session := s }
  | wake {s : Session} : x.session.look x.now = .awake s → Step g x .look { x with session := s }
  | expire : x.session.look x.now = .over → Step g x .look { x with session := x.session.close }
  | extend (t : Nat) : x.session.ended = false →
      Step g x (.answer t) { x with session := x.session.extend.abandon t }
  | refresh : x.session.ended = false →
      Step g x .refresh { x with session := x.session.refresh x.now }
  | terminate : Step g x .terminate { x with session := x.session.close }
  | pass (n : Nat) : x.quiet = true →
      (x.session.ended = false → x.now + n * g ≤ Clock.ceil g x.session.wake) →
      Step g x (.pass n) { x with now := x.now + n * g }

variable {g : Nat} {f : LeaseConfig} {x y z : Tenure} {e : Event}

theorem step_cases (h : x.step? g e = some y) : Step g x e y := by
  cases e with
  | keepAlive | abandon t =>
    cases h
    exact .aside _ rfl rfl rfl rfl rfl rfl
  | refresh =>
    simp only [step?, Session.refresh?] at h
    cases he : x.session.ended with
    | true =>
      simp only [he, if_true] at h
      cases h
      exact .aside x.session rfl rfl rfl rfl rfl rfl
    | false =>
      simp only [he, Bool.false_eq_true, if_false] at h
      cases h
      exact .refresh he
  | call n l op =>
    cases h
    have hc := Session.call_eq_held (Cluster.storeOf n) x.session l op
    refine .aside _ ?_ ?_ ?_ ?_ ?_ ?_ <;> rw [hc]
  | terminate =>
    simp only [step?] at h
    split at h
    · cases h
      exact .aside x.session rfl rfl rfl rfl rfl rfl
    · cases h
      exact .terminate
  | look =>
    simp only [step?] at h
    split at h
    · cases h
    · rename_i s hs
      cases h
      exact .wake hs
    · rename_i hs
      cases h
      exact .expire hs
  | answer t =>
    obtain ⟨ht, h⟩ := Option.ite_none_right_eq_some.1 h
    obtain ⟨⟨a, s⟩, hs, e⟩ := Option.map_eq_some_iff.1 h
    cases e
    obtain ⟨-, -, rfl⟩ | ⟨-, -, -, rfl⟩ | ⟨he, -, -, -, rfl⟩ := Session.settled?_cases hs
    · exact .aside _ rfl rfl rfl rfl rfl rfl
    · exact .aside _ rfl rfl rfl rfl rfl rfl
    · exact .extend t he
  | pass n =>
    obtain ⟨hq, h⟩ := Option.ite_none_right_eq_some.1 h
    cases h
    exact .pass n hq.1 fun he => hq.2.resolve_left (by simp [he])

/-! ## On time -/

/-- An alarm that has been set goes off by the deadline, and the clock has not passed the first
of its instants at or after the deadline. -/
structure OnTime (g : Nat) (f : LeaseConfig) (x : Tenure) : Prop where
  config : x.session.config = f
  now_dvd : g ∣ x.now
  wake_le : x.session.ended = false → x.session.moved = false →
    x.session.wake ≤ x.session.deadline
  now_le : x.session.ended = false → x.now ≤ Clock.ceil g x.session.deadline

theorem onTime_start (hg : 0 < g) (f : LeaseConfig) (c : Client) {now : Nat} (hn : g ∣ now) :
    (start f c now).OnTime g f where
  config := rfl
  now_dvd := hn
  wake_le _ hm := absurd hm (by simp [start, Session.begin])
  now_le _ := Nat.le_trans (Nat.le_add_right now f.length) (Clock.le_ceil hg _)

/-- When nothing can happen the alarm of a live session is to come, and so is the deadline. -/
theorem OnTime.ahead (ht : 0 < f.tick) (h : x.OnTime g f) (hq : x.quiet = true)
    (he : x.session.ended = false) :
    x.now < x.session.wake ∧ x.session.wake ≤ x.session.deadline := by
  obtain ⟨hm, hw⟩ := Session.sleep_of_look (h.config ▸ ht) he (Session.quiet_iff.1 hq).1
  exact ⟨hw, h.wake_le he hm⟩

theorem OnTime.step (hg : 0 < g) (ht : 0 < f.tick) (h : x.OnTime g f)
    (hs : x.step? g e = some y) : y.OnTime g f := by
  cases step_cases hs with
  | aside s hc hst hl he hm hw =>
    have hd : s.deadline = x.session.deadline := by
      unfold Session.deadline
      rw [hst, hl]
    refine ⟨hc.trans h.config, h.now_dvd, fun he' hm' => ?_, fun he' => ?_⟩
    · rw [hw, hd]
      exact h.wake_le (he ▸ he') (hm ▸ hm')
    · rw [hd]
      exact h.now_le (he ▸ he')
  | wake hl =>
    obtain ⟨-, ⟨rfl, -⟩ | ⟨rfl, -⟩⟩ := Session.look_cases hl
    · exact ⟨h.config, h.now_dvd, fun _ _ => Session.nextLook_le_deadline _ _, h.now_le⟩
    · exact ⟨h.config, h.now_dvd, fun _ _ => Session.nextLook_le_deadline _ _, h.now_le⟩
  | expire | terminate => exact ⟨h.config, h.now_dvd, nofun, nofun⟩
  | extend t he =>
    refine ⟨h.config, h.now_dvd, nofun, fun _ => Nat.le_trans (h.now_le he) ?_⟩
    refine Clock.ceil_mono hg ?_
    show x.session.deadline ≤ x.session.extend.deadline
    rw [Session.deadline_extend]
    exact Nat.le_add_right _ _
  | refresh he =>
    refine ⟨h.config, h.now_dvd, nofun, fun _ => ?_⟩
    -- the lease starts over now, however long it is
    have hle : x.now ≤ (x.session.refresh x.now).deadline := Nat.le_add_right _ _
    exact Nat.le_trans hle (Clock.le_ceil hg _)
  | pass n hq hn =>
    refine ⟨h.config, Nat.dvd_add h.now_dvd (Nat.dvd_mul_left g n), h.wake_le, fun he => ?_⟩
    exact Nat.le_trans (hn he) (Clock.ceil_mono hg (h.ahead ht hq he).2)

theorem run?_cons (es : List Event) :
    x.run? g (e :: es) = some z ↔ ∃ y, x.step? g e = some y ∧ y.run? g es = some z := by
  simp [run?, List.foldlM_cons, Option.bind_eq_some_iff]

theorem OnTime.run (hg : 0 < g) (ht : 0 < f.tick) {es : List Event} (h : x.OnTime g f)
    (hr : x.run? g es = some z) : z.OnTime g f :=
  invariant_of_foldlM (fun _ _ _ h => h.step hg ht) h hr

/-- A session that ends, but not by a call, ends at the first instant of the clock that is not
before its deadline. -/
theorem OnTime.over (hg : 0 < g) (h : x.OnTime g f) (hs : x.step? g e = some y)
    (he : x.session.ended = false) (hy : y.session.ended = true) (ht : e ≠ .terminate) :
    y = { x with session := x.session.close } ∧ x.now = Clock.ceil g x.session.deadline := by
  cases step_cases hs with
  | aside s _ _ _ hse =>
    have hy : s.ended = true := hy
    exact absurd (he.symm.trans (hse.symm.trans hy)) (by decide)
  | wake hl =>
    obtain ⟨-, ⟨rfl, -⟩ | ⟨rfl, -⟩⟩ := Session.look_cases hl <;>
      exact absurd (he.symm.trans hy) (by decide)
  | expire hl =>
    obtain ⟨-, -, -, hd⟩ := Session.look_over hl
    exact ⟨rfl, Nat.le_antisymm (h.now_le he) (Clock.ceil_le hg h.now_dvd hd)⟩
  | terminate => exact absurd rfl ht
  | extend | refresh | pass => exact absurd (he.symm.trans hy) (by decide)

/-! ## Whole units -/

/-- Start and lease stay in whole units. -/
structure Whole (g : Nat) (x : Tenure) : Prop where
  start_dvd : g ∣ x.session.start
  lease_dvd : g ∣ x.session.lease

theorem Whole.deadline_dvd (h : x.Whole g) : g ∣ x.session.deadline :=
  Nat.dvd_add h.start_dvd h.lease_dvd

theorem Whole.step (hl : g ∣ f.length) (hx : g ∣ f.extension) (ho : x.OnTime g f)
    (h : x.Whole g) (hs : x.step? g e = some y) : y.Whole g := by
  have hc := ho.config
  cases step_cases hs with
  | aside s _ hst hle => exact ⟨hst ▸ h.start_dvd, hle ▸ h.lease_dvd⟩
  | wake hl => obtain ⟨-, ⟨rfl, -⟩ | ⟨rfl, -⟩⟩ := Session.look_cases hl <;> exact ⟨h.1, h.2⟩
  | expire | terminate | pass => exact ⟨h.1, h.2⟩
  | extend => exact ⟨h.1, Nat.dvd_add h.2 (hc ▸ hx)⟩
  | refresh => exact ⟨ho.now_dvd, by rw [← hc] at hl; exact hl⟩

theorem Whole.run (hg : 0 < g) (ht : 0 < f.tick) (hl : g ∣ f.length) (hx : g ∣ f.extension)
    {es : List Event} (ho : x.OnTime g f) (h : x.Whole g) (hr : x.run? g es = some z) :
    z.Whole g := by
  have both : z.OnTime g f ∧ z.Whole g :=
    invariant_of_foldlM (P := fun x => x.OnTime g f ∧ x.Whole g)
      (fun _ _ _ h hs => ⟨h.1.step hg ht hs, h.2.step hl hx h.1 hs⟩) ⟨ho, h⟩ hr
  exact both.2

/-! ## At one instant -/

/-- An ended session keeps the deadline that it ended with. -/
theorem step_of_ended (he : x.session.ended = true) (hs : x.step? g e = some y) :
    y.session.ended = true ∧ y.session.deadline = x.session.deadline := by
  have live : x.session.ended ≠ false := by simp [he]
  cases step_cases hs with
  | aside s _ hst hl hse =>
    refine ⟨hse.trans he, ?_⟩
    show s.start + s.lease = x.session.start + x.session.lease
    rw [hst, hl]
  | wake hl => exact absurd (Session.look_cases hl).1 live
  | expire hl => exact absurd (Session.look_over hl).1 live
  | extend _ h | refresh h => exact absurd h live
  | terminate => exact ⟨rfl, rfl⟩
  | pass => exact ⟨he, rfl⟩

theorem now_of_prompt (hp : e.Prompt) (hs : x.step? g e = some y) : y.now = x.now := by
  cases step_cases hs with
  | pass => exact hp.elim
  | aside | wake | expire | extend | refresh | terminate => rfl

theorem run_of_ended {es : List Event} (he : x.session.ended = true)
    (hr : x.run? g es = some z) :
    z.session.ended = true ∧ z.session.deadline = x.session.deadline :=
  invariant_of_foldlM
    (P := fun y => y.session.ended = true ∧ y.session.deadline = x.session.deadline)
    (fun _ _ _ h hs => (step_of_ended h.1 hs).imp_right (·.trans h.2)) ⟨he, rfl⟩ hr

/-- A session that ends at an instant without being told to has its deadline then. -/
theorem OnTime.over_of_prompt (hg : 0 < g) (ht : 0 < f.tick) {es : List Event}
    (h : x.OnTime g f) (hp : ∀ e ∈ es, e.Prompt ∧ e ≠ .terminate) (he : x.session.ended = false)
    (hr : x.run? g es = some z) (hz : z.session.ended = true) :
    x.now = Clock.ceil g z.session.deadline := by
  induction es generalizing x with
  | nil =>
    cases hr
    exact absurd (he.symm.trans hz) (by decide)
  | cons e es ih =>
    obtain ⟨y, hy, hr⟩ := (run?_cons es).1 hr
    obtain ⟨⟨hpe, hne⟩, hp⟩ := List.forall_mem_cons.1 hp
    cases hye : y.session.ended with
    | false =>
      rw [← now_of_prompt hpe hy]
      exact ih (h.step hg ht hy) hp hye hr
    | true =>
      obtain ⟨rfl, hn⟩ := h.over hg hy he hye hne
      rw [(run_of_ended hye hr).2]
      exact hn

/-- At every instant it comes to the point where nothing can happen in the session. -/
theorem exists_quiet (g : Nat) (ht : 0 < x.session.config.tick) :
    ∃ es z, (∀ e ∈ es, e.Inner) ∧ x.run? g es = some z ∧ z.quiet = true := by
  induction hw : x.session.work x.now using Nat.strongRecOn generalizing x with
  | ind w ih =>
    by_cases hq : x.quiet = true
    · exact ⟨[], x, by simp, rfl, hq⟩
    · -- the watch and the answers are those of a vigil
      let v : Vigil := { session := x.session, now := x.now }
      obtain ⟨e, u, he, hu⟩ := Vigil.exists_inner_step (x := v) g hq
      obtain ⟨hn, hc, hlt⟩ := Vigil.inner_step (x := v) ht he hu
      obtain ⟨e', he', hy⟩ : ∃ e' : Event, e'.Inner ∧ x.step? g e' = some ⟨u.session, u.now⟩ := by
        cases Vigil.step_cases hu with
        | wake s hl => exact ⟨.look, trivial, by simp only [step?]; rw [hl]⟩
        | expire hl => exact ⟨.look, trivial, by simp only [step?]; rw [hl]; rfl⟩
        | answer t a s htp ha => exact ⟨.answer t, trivial, by simp only [step?]; rw [if_pos htp, ha]; rfl⟩
        | come | go | refresh | terminate | pass => exact he.elim
        | same _ h => obtain rfl | rfl := h <;> exact he.elim
      obtain ⟨es, z, hes, hz, hzq⟩ := ih _ (hw ▸ hlt) (x := ⟨u.session, u.now⟩) (hc ▸ ht) rfl
      exact ⟨e' :: es, z, List.forall_mem_cons.2 ⟨he', hes⟩, (run?_cons es).2 ⟨_, hy, hz⟩, hzq⟩

end Tenure

end LockCell
