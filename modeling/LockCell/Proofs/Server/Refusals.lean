import LockCell.Proofs.Server.Deadlines
import LockCell.Proofs.Server.Recovery

/-
  LockCell.Proofs.Server.Refusals — what a keep-alive that is refused leaves behind.

  A keep-alive that parks moves its session twice: when it comes, and when it is answered.
  Who leads is looked at only when the answer is given, and by then the session has been
  moved: the server is left as a leader would leave it (`answer?_of_error`). So if a newer
  keep-alive has come in between, the refused one has changed nothing that the watch goes
  by. If it is still the newest, it has taken the renewal, and its session runs for one
  extension more than its client knows (`refused_untouched_iff_superseded`).

  A leader that is deposed while a keep-alive is parked at it gives the extension away in
  this manner at the next warning, and keeps the session past the deadline that it would
  have ended at without the call (`outlives_deadline_of_refused`).
-/

namespace LockCell

/-! ## How many keep-alives have come -/

namespace Tenure

variable {g : Nat} {x y : Tenure}

theorem arrived_le_of_step {e : Event} (h : x.step? g e = some y) :
    x.session.arrived ≤ y.session.arrived := by
  cases e with
  | keepAlive =>
    cases h
    exact Nat.le_succ _
  | abandon t =>
    cases h
    exact Nat.le_refl _
  | refresh =>
    simp only [step?, Session.refresh?] at h
    cases he : x.session.ended with
    | true | false => simp only [he] at h; cases h; exact Nat.le_refl _
  | call n l op =>
    cases h
    refine Nat.le_of_eq ?_
    rw [Session.call_eq_held]
  | terminate =>
    simp only [step?] at h
    cases h
    split <;> exact Nat.le_refl _
  | look =>
    simp only [step?] at h
    split at h
    · cases h
    · rename_i s hs
      cases h
      obtain ⟨-, ⟨rfl, -⟩ | ⟨rfl, -⟩⟩ := Session.look_cases hs <;> exact Nat.le_refl _
    · cases h
      exact Nat.le_refl _
  | answer t =>
    obtain ⟨-, h⟩ := Option.ite_none_right_eq_some.1 h
    obtain ⟨⟨a, s⟩, hs, e⟩ := Option.map_eq_some_iff.1 h
    cases e
    exact Nat.le_of_eq (Session.parked_of_settled? hs).2.symm
  | pass n =>
    obtain ⟨-, h⟩ := Option.ite_none_right_eq_some.1 h
    cases h
    exact Nat.le_refl _

theorem arrived_le_of_run {es : List Event} (h : x.run? g es = some y) :
    x.session.arrived ≤ y.session.arrived :=
  invariant_of_foldlM (P := fun z : Tenure => x.session.arrived ≤ z.session.arrived)
    (fun _ _ _ hz hs => Nat.le_trans hz (arrived_le_of_step hs)) (Nat.le_refl _) h

end Tenure

namespace Server

variable {v w w' : Server} {k : Cluster} {c : Client} {i t : Nat} {s u : Session} {e : Error}

theorem arrived_le_of_performs (hi : v.sessions[i]? = some s) (k : Cluster) (now : Nat) (d : Deed) :
    ∃ s', (v.performs k now d).sessions[i]? = some s' ∧ s.arrived ≤ s'.arrived := by
  cases d with
  | act a =>
    obtain ⟨s', hs', es, -, hr⟩ := (befalls_does v k now a).old i s hi
    exact ⟨s', hs', Tenure.arrived_le_of_run (hr 1)⟩
  | table => exact ⟨s, hi, Nat.le_refl _⟩

theorem arrived_le_of_history (hi : v.sessions[i]? = some s) (deeds : List (Nat × Cluster × Deed)) :
    ∃ s', (v.history deeds).sessions[i]? = some s' ∧ s.arrived ≤ s'.arrived := by
  induction deeds generalizing v s with
  | nil => exact ⟨s, hi, Nat.le_refl _⟩
  | cons d deeds ih =>
    obtain ⟨s₁, h₁, hle⟩ := arrived_le_of_performs hi d.2.1 d.1 d.2.2
    obtain ⟨s₂, h₂, hle'⟩ := ih h₁
    exact ⟨s₂, h₂, Nat.le_trans hle hle'⟩

end Server

/-! ## A keep-alive comes -/

/-- All is as it was but for the keep-alives that have come and wait. -/
def Session.Untouched (s s' : Session) : Prop :=
  s' = { s with arrived := s'.arrived, parked := s'.parked }

namespace Session

variable {s : Session}

theorem untouched_arrive (s : Session) : s.Untouched s.arrive := rfl

theorem untouched_abandon (s : Session) (t : Nat) : s.Untouched (s.abandon t) := rfl

/-- A renewal that has been taken shows. -/
theorem not_untouched_extend (h : s.renewal = true) (t : Nat) :
    ¬ s.Untouched (s.extend.abandon t) := by
  intro hu
  unfold Untouched at hu
  have hr := congrArg renewal hu
  exact Bool.noConfusion (hr.trans h)

end Session

namespace Server

variable {v w w' : Server} {k : Cluster} {c : Client} {i t : Nat} {s u : Session} {e : Error}

theorem keepAlive_of_session (hs : v.session? c = some (i, s)) (k : Cluster) (now : Nat) :
    v.keepAlive k c none now = (.parked i (s.arrived + 1), v.setSession i s.arrive, k) := by
  have hp : v.park i = (.parked i (s.arrived + 1), v.setSession i s.arrive) := by
    unfold park
    rw [(session?_eq_some_iff.1 hs).2]
    rfl
  unfold keepAlive
  rw [hs]
  simp only [hp]

/-! ## It is answered -/

theorem renewed_eq_error {a : KeepAlive} (h : w.renewed k a = .error e) :
    a.expired = false ∧ k.leads w.node = false ∧ e = .notLeader k.leaderAddr? := by
  unfold renewed at h
  split at h
  · cases h
  · rename_i hn
    cases h
    simp only [Bool.or_eq_true, not_or, Bool.not_eq_true] at hn
    exact ⟨hn.1, hn.2, rfl⟩

/-- Who leads decides what the caller is told, and nothing else. -/
theorem exists_answer? {r : Except Error KeepAlive} (h : w.answer? k i = some (t, r, w'))
    (k' : Cluster) : ∃ r', w.answer? k' i = some (t, r', w') := by
  unfold answer? at h ⊢
  simp only [Option.bind_eq_bind, Option.bind_eq_some_iff] at h ⊢
  obtain ⟨u, hu, ⟨t, a, u'⟩, ha, e⟩ := h
  cases e
  exact ⟨_, u, hu, _, ha, rfl⟩

/-- A refused keep-alive was overtaken, or it has taken the renewal. -/
theorem answer?_of_error (hu : w.sessions[i]? = some u)
    (h : w.answer? k i = some (t, .error e, w')) :
    k.leads w.node = false ∧ e = .notLeader k.leaderAddr? ∧
      (t ≠ u.arrived ∧ w' = w.setSession i (u.abandon t) ∨
        t = u.arrived ∧ u.renewal = true ∧ w' = w.setSession i (u.extend.abandon t)) := by
  unfold answer? at h
  simp only [hu, Option.bind_eq_bind, Option.bind_some, Option.bind_eq_some_iff] at h
  obtain ⟨⟨t', a, u'⟩, ha, h⟩ := h
  obtain ⟨rfl, hr, rfl⟩ : t' = t ∧ w.renewed k a = .error e ∧ w.setSession i u' = w' := by
    simpa using h
  obtain ⟨hexp, hl, he⟩ := renewed_eq_error hr
  obtain ⟨-, u'', hset, rfl⟩ := Session.settled?_of_answer? ha
  refine ⟨hl, he, ?_⟩
  obtain ⟨-, rfl, -⟩ | ⟨-, hne, -, rfl⟩ | ⟨-, heq, hren, -, rfl⟩ := Session.settled?_cases hset
  · cases hexp
  · exact Or.inl ⟨hne, rfl⟩
  · exact Or.inr ⟨heq, hren, rfl⟩

/-- **A refused keep-alive leaves its session alone exactly if it was overtaken.** A keep-alive
of a client with a session parks there, and changes nothing of the lease. Whatever is done at
the server meanwhile, and whoever leads: if it is answered with a refusal, then the server does
not lead, but is left as it would be if it led. If a newer keep-alive has come in between, the
session is untouched; if not, the refused one has taken the renewal, and the lease has grown by
one extension. -/
theorem refused_untouched_iff_superseded (hs : v.session? c = some (i, s)) (k : Cluster)
    (now : Nat) (during : List (Nat × Cluster × Deed)) :
    ∃ v₁, v.keepAlive k c none now = (.parked i (s.arrived + 1), v₁, k) ∧
      (∃ s₁, v₁.sessions[i]? = some s₁ ∧ s.Untouched s₁) ∧
      ∀ k' e w', (v₁.history during).answer? k' i = some (s.arrived + 1, .error e, w') →
        k'.leads (v₁.history during).node = false ∧ e = .notLeader k'.leaderAddr? ∧
          (∀ k'', ∃ r, (v₁.history during).answer? k'' i = some (s.arrived + 1, r, w')) ∧
          ∃ u u', (v₁.history during).sessions[i]? = some u ∧ w'.sessions[i]? = some u' ∧
            (u.Untouched u' ↔ s.arrived + 1 < u.arrived) ∧
            (u.arrived = s.arrived + 1 → u.renewal = true ∧ u'.renewal = false ∧
              u'.start = u.start ∧ u'.lease = u.lease + u.config.extension) := by
  have hi := (session?_eq_some_iff.1 hs).2
  have h₁ : (v.setSession i s.arrive).sessions[i]? = some s.arrive := by
    rw [sessions_setSession hi, if_pos rfl]
  refine ⟨_, keepAlive_of_session hs k now, ⟨_, h₁, s.untouched_arrive⟩, fun k' e w' ha => ?_⟩
  obtain ⟨u, hu, hle⟩ := arrived_le_of_history h₁ during
  have hle : s.arrived + 1 ≤ u.arrived := hle
  obtain ⟨hl, he, hcase⟩ := answer?_of_error hu ha
  refine ⟨hl, he, exists_answer? ha, u, ?_⟩
  obtain ⟨hne, rfl⟩ | ⟨heq, hr, rfl⟩ := hcase
  · refine ⟨u.abandon (s.arrived + 1), hu, by rw [sessions_setSession hu, if_pos rfl], ?_,
      fun heq => absurd heq.symm hne⟩
    exact iff_of_true (u.untouched_abandon _) (Nat.lt_of_le_of_ne hle hne)
  · refine ⟨u.extend.abandon (s.arrived + 1), hu, by rw [sessions_setSession hu, if_pos rfl], ?_,
      fun _ => ⟨hr, rfl, rfl, rfl⟩⟩
    exact iff_of_false (Session.not_untouched_extend hr _) (by omega)

/-- A keep-alive is overtaken by another one, and the server steps down before they are
answered. -/
def overtaken : List (Nat × Cluster × Deed) :=
  let k := Cluster.empty.elect "a"
  [(0, k, .act (.look 0)), (secs 1, k, .act (.park 0)), (secs 11, k.stepDown, .act (.look 0))]

theorem refused_untouched_iff_superseded_of_overtaken :
    let v := ({ node := "a", listen := "a:1", lease := .default } : Server).push "x" 0
    let k := Cluster.empty.elect "a"
    ∃ s v₁ w' u u', v.session? "x" = some (0, s) ∧ v.keepAlive k "x" none 0 = (.parked 0 1, v₁, k) ∧
      (v₁.history overtaken).answer? .empty 0 = some (1, .error (.notLeader none), w') ∧
      (v₁.history overtaken).sessions[0]? = some u ∧ u.arrived = 2 ∧ u.renewal = true ∧
      w'.sessions[0]? = some u' ∧ u.Untouched u' := by
  intro v k
  have hs : v.session? "x" = some (0, .begin "x" .default 0) := by
    rw [session?_eq_some_iff, registry_push, sessions_push]
    exact ⟨if_pos rfl, if_pos rfl⟩
  obtain ⟨v₁, hk, -, h⟩ := refused_untouched_iff_superseded hs k 0 overtaken
  obtain rfl : (v.keepAlive k "x" none 0).2.1 = v₁ := by rw [hk]
  let w := (v.keepAlive k "x" none 0).2.1.history overtaken
  have ha : (w.answer? .empty 0).any (fun x => x.1 == 1 && !x.2.1.isOk) = true := by
    decide +kernel
  have hu : w.sessions[0]?.any (fun u => u.arrived == 2 && u.renewal) = true := by decide +kernel
  simp only [Option.any_eq_true, Bool.and_eq_true, beq_iff_eq] at ha hu
  obtain ⟨⟨t, _ | e, w'⟩, ha, rfl, he⟩ := ha
  · obtain ⟨u, hu, harr, hr⟩ := hu
    obtain ⟨-, rfl, -, u₁, u', hu₁, hu', hiff, -⟩ := h .empty _ w' ha
    rw [hu] at hu₁
    cases hu₁
    exact ⟨_, _, w', u, u', hs, hk, ha, hu, harr, hr, hu', hiff.2 (by rw [harr]; decide)⟩
  · cases he

/-! ## The deadline that is passed -/

/-- A second passes at a server that does not lead, and the watch looks. -/
def second : List Happening := [.pass 1000, .act .empty (.look 0)]

/-- A server makes a session, in which a keep-alive parks or does not; then it steps down, and
the clock goes on to the warning. -/
def deposed (called : Bool) : List Happening :=
  let act := Happening.act (Cluster.empty.elect "a")
  [act (.create "x"), act (.look 0)] ++ (if called then [act (.keepAlive "x" none)] else []) ++
    (List.replicate 11 second).flatten

/-- Who is parked is answered, and the clock goes on to the deadline of which was warned. -/
def toDeadline : List Happening :=
  [.act .empty (.answer 0), .act .empty (.look 0)] ++ second

/-- The keep-alive is refused and takes an extension of twelve seconds; at the deadline the
session lives, and without that keep-alive it has ended. -/
theorem outlives_deadline_of_refused :
    let v₀ : Server := { node := "a", listen := "a:1", lease := .default }
    let run := fun hs => course? Clock.milli (v₀, 0) hs
    (∃ v w u u', run (deposed true) = some (v, secs 11) ∧
      v.answer? .empty 0 = some (1, .error (.notLeader none), w) ∧
      v.sessions[0]? = some u ∧ u.deadline = secs 12 ∧ u.renewal = true ∧
      w.sessions[0]? = some u' ∧ u'.deadline = secs 24 ∧ u'.renewal = false) ∧
    (∃ v s, run (deposed true ++ toDeadline) = some (v, secs 12) ∧ v.sessions[0]? = some s ∧
      s.live = true) ∧
    ∃ v s, run (deposed false ++ toDeadline) = some (v, secs 12) ∧ v.sessions[0]? = some s ∧
      s.live = false := by
  intro v₀ run
  have refused : (run (deposed true)).any (fun x => x.2 == secs 11 &&
      x.1.sessions[0]?.any (fun u => u.deadline == secs 12 && u.renewal) &&
      (x.1.answer? .empty 0).any (fun y => y.1 == 1 && !y.2.1.isOk &&
        y.2.2.sessions[0]?.any fun u => u.deadline == secs 24 && !u.renewal)) = true := by
    decide +kernel
  have later : ∀ called, (run (deposed called ++ toDeadline)).any (fun x => x.2 == secs 12 &&
      x.1.sessions[0]?.any (·.live == called)) = true := by
    decide +kernel
  have lives := later true
  have ends := later false
  simp only [Option.any_eq_true, Bool.and_eq_true, beq_iff_eq, Bool.not_eq_true',
    Prod.exists] at refused lives ends
  refine ⟨?_, ?_, ?_⟩
  · obtain ⟨v, now, hv, ⟨rfl, u, hu, hd, hr⟩, t, r, w, ha, ⟨rfl, hok⟩, u', hu', hd', hr'⟩ := refused
    cases r with
    | ok a => cases hok
    | error e =>
      obtain ⟨-, rfl, -⟩ := answer?_of_error hu ha
      exact ⟨v, w, u, u', hv, ha, hu, hd, hr, hu', hd', hr'⟩
  · obtain ⟨v, now, hv, rfl, s, hs, hl⟩ := lives
    exact ⟨v, s, hv, hs, hl⟩
  · obtain ⟨v, now, hv, rfl, s, hs, hl⟩ := ends
    exact ⟨v, s, hv, hs, hl⟩

end Server

end LockCell
