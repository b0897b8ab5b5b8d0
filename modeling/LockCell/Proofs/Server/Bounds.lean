import LockCell.Proofs.Server.Deadlines

/-
  LockCell.Proofs.Server.Bounds — no lease can be stored up.

  Nothing in a session compares its lease with a bound. What bounds it is who may add to it:
  an extension takes the renewal, and the watch lets one renewal through, when the deadline
  is within the warning (`Session.warnable`). So a deadline for which a renewal is pending is
  near, and an extension brings it no further than the warning and the extension together
  (`Bounded`). This is so for any spans, also when the warning is longer than the extension,
  so that one extension is due after the other, and however many ask for them.

  The deadline moves in contact with the client only (`Event.Contact`), so that a session
  that hears no more of its client is over by then.
-/

namespace LockCell

/-- How far ahead a deadline can be. -/
def LeaseConfig.furthest (f : LeaseConfig) : Nat := max f.length (f.warning + f.extension)

namespace Tenure

variable {g : Nat} {f : LeaseConfig} {x y z : Tenure} {e : Event}

/-- The deadline is not too far ahead, and near if the next keep-alive may move it. -/
structure Bounded (f : LeaseConfig) (x : Tenure) : Prop where
  config : x.session.config = f
  near : x.session.renewal = true → x.session.deadline ≤ x.now + f.warning
  bounded : x.session.deadline ≤ x.now + f.furthest

theorem bounded_start (f : LeaseConfig) (c : Client) (now : Nat) : (start f c now).Bounded f where
  config := rfl
  near h := by simp [start, Session.begin] at h
  bounded := Nat.add_le_add_left (Nat.le_max_left _ _) now

/-- The deadline stays, and no renewal is let through. -/
theorem Bounded.aside (h : x.Bounded f) {s : Session} (hc : s.config = x.session.config)
    (hd : s.deadline = x.session.deadline) (hr : s.renewal = true → x.session.renewal = true) :
    ({ x with session := s } : Tenure).Bounded f where
  config := hc.trans h.config
  near hs := by
    rw [hd]
    exact h.near (hr hs)
  bounded := by
    rw [hd]
    exact h.bounded

/-- The renewal comes with a deadline within the warning. -/
theorem Bounded.warn (h : x.Bounded f) (hw : x.session.warnable x.now = true) :
    ({ x with session := x.session.warn.aim x.now } : Tenure).Bounded f where
  config := h.config
  near _ := by
    have hle := (Session.warnable_iff.1 hw).1
    rw [h.config] at hle
    show x.session.deadline ≤ x.now + f.warning
    omega
  bounded := h.bounded

/-- The extension adds to a deadline that is within the warning. -/
theorem Bounded.extend (h : x.Bounded f) (hr : x.session.renewal = true) (t : Nat) :
    ({ x with session := x.session.extend.abandon t } : Tenure).Bounded f where
  config := h.config
  near := nofun
  bounded := by
    have hx := Session.deadline_extend x.session
    have hn := h.near hr
    have hle : f.warning + f.extension ≤ f.furthest := Nat.le_max_right _ _
    rw [h.config] at hx
    show x.session.extend.deadline ≤ x.now + f.furthest
    omega

theorem Bounded.refresh (h : x.Bounded f) :
    ({ x with session := x.session.refresh x.now } : Tenure).Bounded f where
  config := h.config
  near := nofun
  bounded := by
    show x.now + x.session.config.length ≤ x.now + f.furthest
    rw [h.config]
    exact Nat.add_le_add_left (Nat.le_max_left _ _) _

theorem Bounded.step (h : x.Bounded f) (hs : x.step? g e = some y) : y.Bounded f := by
  cases e with
  | keepAlive | abandon t =>
    cases hs
    exact h.aside rfl rfl id
  | refresh =>
    simp only [step?, Session.refresh?] at hs
    split at hs
    · cases hs
      exact h
    · rename_i hr
      split at hr
      · cases hr
      · cases hr
        cases hs
        exact h.refresh
  | call n l op =>
    cases hs
    rw [Session.call_eq_held]
    exact h.aside rfl rfl id
  | terminate =>
    cases hs
    split
    · exact h
    · exact h.aside rfl rfl id
  | look =>
    simp only [step?] at hs
    split at hs
    · cases hs
    · rename_i hl
      cases hs
      obtain ⟨-, ⟨rfl, -⟩ | ⟨rfl, -, -, -, hw⟩⟩ := Session.look_cases hl
      · exact h.aside rfl rfl id
      · exact h.warn hw
    · cases hs
      exact h.aside rfl rfl id
  | answer t =>
    obtain ⟨-, hs⟩ := Option.ite_none_right_eq_some.1 hs
    obtain ⟨⟨a, s⟩, ha, e⟩ := Option.map_eq_some_iff.1 hs
    cases e
    obtain ⟨-, -, rfl⟩ | ⟨-, -, -, rfl⟩ | ⟨-, -, hr, -, rfl⟩ := Session.settled?_cases ha
    · exact h.aside rfl rfl id
    · exact h.aside rfl rfl id
    · exact h.extend hr t
  | pass n =>
    obtain ⟨-, hs⟩ := Option.ite_none_right_eq_some.1 hs
    cases hs
    -- time only brings the deadline nearer
    exact ⟨h.config, fun hr => Nat.le_trans (h.near hr) (by simp only; omega),
      Nat.le_trans h.bounded (by simp only; omega)⟩

/-! ## After the last contact -/

/-- The client is heard, or hears. -/
def Event.Contact : Event → Prop
  | .keepAlive | .refresh | .answer _ => True
  | _ => False

theorem deadline_of_step (hc : ¬ e.Contact) (hs : x.step? g e = some y) :
    y.session.deadline = x.session.deadline := by
  cases step_cases hs with
  | aside s _ hst hl =>
    show s.start + s.lease = x.session.start + x.session.lease
    rw [hst, hl]
  | wake hl => obtain ⟨-, ⟨rfl, -⟩ | ⟨rfl, -⟩⟩ := Session.look_cases hl <;> rfl
  | extend | refresh => exact absurd trivial hc
  | expire | terminate | pass => rfl

/-- Without contact a session keeps its deadline. -/
theorem deadline_of_run {es : List Event} (hc : ∀ e ∈ es, ¬ e.Contact)
    (hr : x.run? g es = some z) : z.session.deadline = x.session.deadline := by
  induction es generalizing x with
  | nil =>
    cases hr
    rfl
  | cons e es ih =>
    obtain ⟨y, hy, hr⟩ := (run?_cons es).1 hr
    obtain ⟨he, hc⟩ := List.forall_mem_cons.1 hc
    exact (ih hc hr).trans (deadline_of_step he hy)

end Tenure

namespace Server

variable {g now : Nat} {f : LeaseConfig} {v : Server} {i : Nat} {s : Session}

/-- **Leases are bounded.** For every lease whose watch sleeps for some time, in every course
of things at a server, whoever leads meanwhile: the deadline of a session for which a renewal
is pending is within the warning, and the deadline of every session is no further ahead than
a new lease, or the warning and an extension, whichever is longer. So a session that hears no
more of its client lives on for no longer than that, up to the clock's next instant. -/
theorem lease_bounded (hg : 0 < g) (ht : 0 < f.tick) (n : Node) (listen : Addr) {now₀ : Nat}
    (hn : g ∣ now₀) {hs : List Happening}
    (hc : course? g ({ node := n, listen, lease := f }, now₀) hs = some (v, now))
    (hi : v.sessions[i]? = some s) :
    (s.renewal = true → s.deadline - now ≤ f.warning) ∧
      s.deadline - now ≤ max f.length (f.warning + f.extension) ∧
      ∀ es z, (∀ e ∈ es, ¬ e.Contact) → (Tenure.mk s now).run? g es = some z →
        z.session.ended = false →
        z.now ≤ Clock.ceil g (now + max f.length (f.warning + f.extension)) ∧
          (z.quiet = true → z.now < now + max f.length (f.warning + f.extension)) := by
  have hp : Throughout g f (fun t => t.OnTime g f ∧ t.Bounded f) (v, now) := by
    refine (throughout_fresh n listen f hn).course (fun c t hd => ?_) (fun x e y h hs => ?_) hc
    · exact ⟨Tenure.onTime_start hg f c hd, Tenure.bounded_start f c t⟩
    · exact ⟨h.1.step hg ht hs, h.2.step hs⟩
  obtain ⟨ho, hb⟩ := hp.each i s hi
  have hle : s.deadline ≤ now + max f.length (f.warning + f.extension) := hb.bounded
  refine ⟨fun hr => Nat.sub_le_iff_le_add'.2 (hb.near hr), Nat.sub_le_iff_le_add'.2 hle, ?_⟩
  intro es z hes hr hz
  have hd : z.session.deadline = s.deadline := Tenure.deadline_of_run hes hr
  have hzo : z.OnTime g f := ho.run hg ht hr
  refine ⟨Nat.le_trans (hzo.now_le hz) (hd ▸ Clock.ceil_mono hg hle), fun hq => ?_⟩
  obtain ⟨hw, hwd⟩ := hzo.ahead ht hq hz
  exact Nat.lt_of_lt_of_le hw (Nat.le_trans hwd (hd ▸ hle))

/-- A client that asks as often as it can: the warning is longer than the extension, and the
lease is extended three times in a row, until the watch has let a fourth renewal through. -/
def greedy : List Happening :=
  let act := Happening.act .empty
  let warned := [act (.look 0), act (.look 0)]
  let round := warned ++ [act (.park 0), act (.answer 0)]
  act (.create "c") :: round ++ round ++ round ++ warned

/-- The watch of a session that is left alone takes its naps. -/
def naps : List Tenure.Event := [.pass 3, .look, .pass 3, .look, .pass 3, .look]

theorem lease_bounded_of_greedy :
    ∃ v now s z, course? Clock.milli ({ node := "a", listen := "a:1", lease := hasty }, 0)
        greedy = some (v, now) ∧ v.sessions[0]? = some s ∧ s.renewal = true ∧
      s.deadline - now = hasty.warning ∧
      (Tenure.mk s now).run? Clock.milli naps = some z ∧ z.session.ended = false ∧
      z.now < now + max hasty.length (hasty.warning + hasty.extension) := by
  let after := course? Clock.milli ({ node := "a", listen := "a:1", lease := hasty }, 0) greedy
  let slept := after.bind fun x => x.1.sessions[0]?.bind fun s =>
    ((Tenure.mk s x.2).run? Clock.milli naps).map fun z => (x.1, x.2, s, z)
  obtain ⟨⟨v, now, s, z⟩, hx⟩ := Option.isSome_iff_exists.1
    (show slept.isSome from by decide +kernel)
  have hcheck : slept.all (fun (_, now, s, z) => s.renewal && s.deadline - now == hasty.warning &&
      !z.session.ended && z.quiet) = true := by
    decide +kernel
  rw [hx] at hcheck
  obtain ⟨x, hc, hx⟩ := Option.bind_eq_some_iff.1 hx
  obtain ⟨s', hs, hx⟩ := Option.bind_eq_some_iff.1 hx
  obtain ⟨z', hz, e⟩ := Option.map_eq_some_iff.1 hx
  cases e
  simp only [Option.all_some, Bool.and_eq_true, Bool.not_eq_true', beq_iff_eq] at hcheck
  obtain ⟨⟨⟨hr, hd⟩, hl⟩, hq⟩ := hcheck
  have hnaps : ∀ e ∈ naps, ¬ e.Contact := by simp [naps, Tenure.Event.Contact]
  have h := (lease_bounded (by decide) (by decide) "a" "a:1" (Nat.dvd_zero _) hc hs).2.2
    naps z hnaps hz hl
  exact ⟨x.1, x.2, s, z, hc, hs, hr, hd, hz, hl, h.2 hq⟩

end Server

end LockCell
