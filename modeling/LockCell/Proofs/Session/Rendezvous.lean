import LockCell.Proofs.Server.OneLeader
import LockCell.Proofs.Session.Watch

/-
  LockCell.Proofs.Session.Rendezvous — keep-alives meet the watch of their session.

  A vigil is one session under a clock, with a record of its keep-alives: when each came,
  what it was told, and who went away. From outside keep-alives come and go, the lease is
  refreshed, the session is ended, the clock goes on, each of them when nothing can happen
  in the session; in between the watch looks and parked keep-alives are answered, in any
  order (`Vigil.step?`). So it goes with the sessions that a server keeps (`sessions_does`).

  What every step keeps comes in three parts:
  - who is where (`Calls`): every keep-alive is parked, gone or has been told, and only one
    of these;
  - why those that are parked are told something now, if they are (`Due`): a newer one came
    now, or the warning or the end of the session has come now, or they came only now;
  - what was told was right (`Log`).
  Together they say what the rendezvous promises (`rendezvous`).
-/

namespace LockCell

/-- What every step keeps, a row of steps keeps that is not broken off. -/
theorem invariant_of_foldlM {α β : Type} {f : β → α → Option β} {P : β → Prop}
    (hs : ∀ b a b', P b → f b a = some b' → P b') {l : List α} {b b' : β} (h : P b)
    (hl : l.foldlM f b = some b') : P b' := by
  induction l generalizing b with
  | nil =>
    cases hl
    exact h
  | cons a l ih =>
    rw [List.foldlM_cons] at hl
    obtain ⟨c, hc, hl⟩ := Option.bind_eq_some_iff.1 hl
    exact ih (hs b a c h hc) hl

/-- What a keep-alive was told and when, and the session before and after that. -/
structure Told where
  ticket : Nat
  answer : KeepAlive
  instant : Nat
  before : Session
  after : Session

/-- It moved the deadline. -/
def Told.Extends (e : Told) : Prop := e.before.deadline ≠ e.after.deadline

structure Vigil where
  session : Session
  now : Nat
  /-- When each keep-alive came; the ticket `t` is the `t`-th. -/
  came : List Nat := []
  told : List Told := []
  /-- The tickets of those whose callers went away. -/
  gone : List Nat := []
  /-- When the session ended. -/
  overAt : Option Nat := none

namespace Vigil

inductive Event where
  | keepAlive
  | abandon (ticket : Nat)
  | refresh
  | terminate
  /-- The clock goes on by so many units. -/
  | pass (units : Nat)
  | look
  | answer (ticket : Nat)
  deriving DecidableEq, Repr

/-- It happens by itself. -/
def Event.Inner : Event → Prop
  | look | answer _ => True
  | _ => False

def start (f : LeaseConfig) (c : Client) (now : Nat) : Vigil :=
  { session := .begin c f now, now }

def quiet (x : Vigil) : Bool := x.session.quiet x.now

def close (x : Vigil) : Vigil := { x with session := x.session.close, overAt := some x.now }

/-- A parked keep-alive is told `a`, which leaves the session as `s`. -/
def tell (x : Vigil) (t : Nat) (a : KeepAlive) (s : Session) : Vigil :=
  { x with session := s.abandon t, told := x.told ++ [⟨t, a, x.now, x.session, s⟩] }

/-- What comes from outside, or `none` if it cannot be: a call that is not parked cannot go
away, and the clock does not pass an alarm. -/
def outer? (g : Nat) (x : Vigil) : Event → Option Vigil
  | .keepAlive => some { x with session := x.session.arrive, came := x.came ++ [x.now] }
  | .abandon t =>
    if t ∈ x.session.parked then
      some { x with session := x.session.abandon t, gone := x.gone ++ [t] }
    else none
  | .refresh =>
    match x.session.refresh? x.now with
    | .error _ => some x
    | .ok s => some { x with session := s }
  | .terminate => some (if x.session.ended then x else x.close)
  | .pass n =>
    if x.session.ended ∨ x.now + n * g ≤ Clock.ceil g x.session.wake then
      some { x with now := x.now + n * g }
    else none
  | .look | .answer _ => none

/-- What comes of an event, or `none` if it is out of turn. -/
def step? (g : Nat) (x : Vigil) : Event → Option Vigil
  | .look =>
    match x.session.look x.now with
    | .asleep => none
    | .awake s => some { x with session := s }
    | .over => some x.close
  | .answer t =>
    if t ∈ x.session.parked then (x.session.settled? t).map fun (a, s) => x.tell t a s else none
  | e => if x.quiet then x.outer? g e else none

def run? (g : Nat) (x : Vigil) (es : List Event) : Option Vigil := es.foldlM (step? g) x

/-- All that a step can be. -/
inductive Step (g : Nat) (x : Vigil) : Event → Vigil → Prop
  | wake (s : Session) : x.session.look x.now = .awake s → Step g x .look { x with session := s }
  | expire : x.session.look x.now = .over → Step g x .look x.close
  | answer (t : Nat) (a : KeepAlive) (s : Session) : t ∈ x.session.parked →
      x.session.settled? t = some (a, s) → Step g x (.answer t) (x.tell t a s)
  | come : x.quiet = true →
      Step g x .keepAlive { x with session := x.session.arrive, came := x.came ++ [x.now] }
  | go (t : Nat) : x.quiet = true → t ∈ x.session.parked →
      Step g x (.abandon t) { x with session := x.session.abandon t, gone := x.gone ++ [t] }
  | refresh : x.quiet = true → x.session.ended = false →
      Step g x .refresh { x with session := x.session.refresh x.now }
  | terminate : x.quiet = true → x.session.ended = false → Step g x .terminate x.close
  | pass (n : Nat) : x.quiet = true →
      (x.session.ended = false → x.now + n * g ≤ Clock.ceil g x.session.wake) →
      Step g x (.pass n) { x with now := x.now + n * g }
  /-- A refresh or an end that comes after the end. -/
  | same {e : Event} : x.session.ended = true → e = .refresh ∨ e = .terminate → Step g x e x

variable {g : Nat} {f : LeaseConfig} {x y z : Vigil} {e : Event}

theorem step_cases (h : x.step? g e = some y) : Step g x e y := by
  cases e with
  | look =>
    simp only [step?] at h
    split at h
    · cases h
    · rename_i s hs
      cases h
      exact .wake s hs
    · rename_i hs
      cases h
      exact .expire hs
  | answer t =>
    simp only [step?] at h
    split at h
    · rename_i ht
      obtain ⟨⟨a, s⟩, hs, e⟩ := Option.map_eq_some_iff.1 h
      cases e
      exact .answer t a s ht hs
    · cases h
  | keepAlive =>
    obtain ⟨hq, h⟩ := Option.ite_none_right_eq_some.1 h
    cases h
    exact .come hq
  | abandon t =>
    obtain ⟨hq, h⟩ := Option.ite_none_right_eq_some.1 h
    obtain ⟨ht, h⟩ := Option.ite_none_right_eq_some.1 h
    cases h
    exact .go t hq ht
  | refresh =>
    obtain ⟨hq, h⟩ := Option.ite_none_right_eq_some.1 h
    simp only [outer?, Session.refresh?] at h
    cases he : x.session.ended with
    | true =>
      simp only [he, if_true] at h
      cases h
      exact .same he (.inl rfl)
    | false =>
      simp only [he, Bool.false_eq_true, if_false] at h
      cases h
      exact .refresh hq he
  | terminate =>
    obtain ⟨hq, h⟩ := Option.ite_none_right_eq_some.1 h
    simp only [outer?] at h
    cases he : x.session.ended with
    | true =>
      simp only [he, if_true] at h
      cases h
      exact .same he (.inr rfl)
    | false =>
      simp only [he, Bool.false_eq_true, if_false] at h
      cases h
      exact .terminate hq he
  | pass n =>
    obtain ⟨hq, h⟩ := Option.ite_none_right_eq_some.1 h
    obtain ⟨hn, h⟩ := Option.ite_none_right_eq_some.1 h
    cases h
    exact .pass n hq fun he => hn.resolve_left (by simp [he])

/-! ## At a server -/

/-- What is done at the server whose session `i` this is. -/
def Event.act? (i : Nat) : Event → Option Server.Act
  | .keepAlive => some (.park i)
  | .abandon t => some (.abandon i t)
  | .refresh => some (.refresh i)
  | .terminate => some (.terminate i)
  | .look => some (.look i)
  | .answer _ => some (.answer i)
  | .pass _ => none

/-- What befalls a vigil befalls the session that a server keeps. -/
theorem sessions_does {v : Server} {k : Cluster} {i : Nat} {a : Server.Act}
    (hi : v.sessions[i]? = some x.session) (ha : e.act? i = some a)
    (ht : ∀ t, e = .answer t → ∃ b s, x.session.answer? = some (t, b, s))
    (hs : x.step? g e = some y) : (v.does k x.now a).1.sessions[i]? = some y.session := by
  have hset : ∀ s, (v.setSession i s).sessions[i]? = some s := fun s =>
    (Server.sessions_setSession hi s i).trans (if_pos rfl)
  have hterm : (v.terminate k i).1.sessions[i]? =
      some (x.session.terminate v.store (v.locks k)).1 := by
    unfold Server.terminate
    rw [Server.onSession_of_some hi]
    exact hset _
  cases step_cases hs with
  | wake s hl =>
    cases ha
    simpa [Server.does, Server.look?, hi, hl] using hset s
  | expire hl =>
    cases ha
    have he : x.session.ended = false := (Session.look_over hl).1
    simpa [Server.does, Server.look?, hi, hl, Session.terminate, he, close] using hterm
  | answer t b s htp hb =>
    cases ha
    obtain ⟨b', s', hans⟩ := ht t rfl
    obtain ⟨-, u, hu, rfl⟩ := Session.settled?_of_answer? hans
    rw [hb] at hu
    cases hu
    simpa [Server.does, Server.answer?, hi, hans, tell] using hset (s.abandon t)
  | come =>
    cases ha
    simpa [Server.does, Server.park, hi] using hset x.session.arrive
  | go t =>
    cases ha
    simpa [Server.does, Server.abandon, hi] using hset (x.session.abandon t)
  | refresh _ he =>
    cases ha
    simpa [Server.does, hi, Session.refresh?, he] using hset (x.session.refresh x.now)
  | terminate _ he =>
    cases ha
    simpa [Server.does, Session.terminate, he, close] using hterm
  | pass => cases ha
  | same he h =>
    obtain rfl | rfl := h
    · cases ha
      simp [Server.does, hi, Session.refresh?, he]
    · cases ha
      simpa [Server.does, Session.terminate, he] using hterm

/-! ## Who is where -/

/-- Every keep-alive that came is parked, gone or has been told, and only one of these. -/
structure Calls (x : Vigil) : Prop where
  came_length : x.came.length = x.session.arrived
  came_le : ∀ a ∈ x.came, a ≤ x.now
  nodup : x.session.parked.Nodup
  parked : ∀ t ∈ x.session.parked, 0 < t ∧ t ≤ x.session.arrived ∧ t ∉ x.gone ∧
    ∀ e ∈ x.told, e.ticket ≠ t
  gone : ∀ t ∈ x.gone, t ≤ x.session.arrived
  told : ∀ e ∈ x.told, e.ticket ≤ x.session.arrived ∧ e.ticket ∉ x.gone ∧ e.instant ≤ x.now
  accounted : ∀ t, 0 < t → t ≤ x.session.arrived →
    t ∈ x.session.parked ∨ t ∈ x.gone ∨ ∃ e ∈ x.told, e.ticket = t

theorem calls_start (f : LeaseConfig) (c : Client) (now : Nat) : (start f c now).Calls where
  came_length := rfl
  came_le _ h := by cases h
  nodup := List.nodup_nil
  parked _ h := by cases h
  gone _ h := by cases h
  told _ h := by cases h
  accounted t h h' := absurd h (Nat.not_lt.2 h')

/-- When a parked keep-alive came. -/
theorem Calls.came (h : x.Calls) {t : Nat} (ht : t ∈ x.session.parked) :
    ∃ a, x.came[t - 1]? = some a ∧ a ≤ x.now := by
  obtain ⟨hpos, hle, -⟩ := h.parked t ht
  have hlt : t - 1 < x.came.length := by
    rw [h.came_length]
    omega
  exact ⟨_, List.getElem?_eq_getElem hlt, h.came_le _ (List.getElem_mem hlt)⟩

theorem Calls.come (h : x.Calls) :
    Calls { x with session := x.session.arrive, came := x.came ++ [x.now] } where
  came_length := by simp [h.came_length, Session.arrive]
  came_le := by simpa [or_imp, forall_and] using h.came_le
  nodup := by
    refine List.nodup_append.2 ⟨h.nodup, by simp, fun t ht u hu => ?_⟩
    have := (h.parked t ht).2.1
    rw [List.mem_singleton] at hu
    omega
  parked t ht := by
    obtain ht | ht := List.mem_append.1 ht
    · obtain ⟨hpos, hle, hr⟩ := h.parked t ht
      exact ⟨hpos, Nat.le_succ_of_le hle, hr⟩
    · -- a new ticket is on no list yet
      cases List.mem_singleton.1 ht
      refine ⟨Nat.succ_pos _, Nat.le_refl _, fun hg => ?_, fun e he => ?_⟩
      · have := h.gone _ hg
        omega
      · have := (h.told e he).1
        omega
  gone t ht := Nat.le_succ_of_le (h.gone t ht)
  told e he := ⟨Nat.le_succ_of_le (h.told e he).1, (h.told e he).2⟩
  accounted t hpos hle := by
    obtain hle | rfl := Nat.le_succ_iff.1 hle
    · obtain ht | hr := h.accounted t hpos hle
      · exact .inl (List.mem_append_left _ ht)
      · exact .inr hr
    · exact .inl (List.mem_append_right _ (List.mem_singleton.2 rfl))

theorem Calls.go (h : x.Calls) {t : Nat} (ht : t ∈ x.session.parked) :
    Calls { x with session := x.session.abandon t, gone := x.gone ++ [t] } := by
  obtain ⟨-, hle, -, hnt⟩ := h.parked t ht
  exact { h with
    nodup := h.nodup.erase t
    parked := fun u hu => by
      obtain ⟨hne, hu⟩ := h.nodup.mem_erase_iff.1 hu
      obtain ⟨hpos, hle, hg, ht⟩ := h.parked u hu
      exact ⟨hpos, hle, by simp [hg, hne], ht⟩
    gone := by simpa [or_imp, forall_and, Session.abandon, hle] using h.gone
    told := fun e he => by
      obtain ⟨hle, hg, hi⟩ := h.told e he
      exact ⟨hle, by simp [hg, hnt e he], hi⟩
    accounted := fun u hpos hle => by
      by_cases e : u = t
      · exact .inr (.inl (by simp [e]))
      · obtain hu | hu | hu := h.accounted u hpos hle
        · exact .inl ((List.mem_erase_of_ne e).2 hu)
        · exact .inr (.inl (List.mem_append_left _ hu))
        · exact .inr (.inr hu) }

theorem Calls.tell (h : x.Calls) {t : Nat} (ht : t ∈ x.session.parked) {a : KeepAlive}
    {s : Session} (hp : s.parked = x.session.parked) (ha : s.arrived = x.session.arrived) :
    (x.tell t a s).Calls := by
  obtain ⟨-, hle, hg, -⟩ := h.parked t ht
  have hparked : (x.tell t a s).session.parked = x.session.parked.erase t := by
    rw [← hp]
    rfl
  have harrived : (x.tell t a s).session.arrived = x.session.arrived := ha
  constructor
  case came_length =>
    rw [harrived]
    exact h.came_length
  case came_le => exact h.came_le
  case nodup =>
    rw [hparked]
    exact h.nodup.erase t
  case parked =>
    rw [hparked, harrived]
    intro u hu
    obtain ⟨hne, hu⟩ := h.nodup.mem_erase_iff.1 hu
    obtain ⟨hpos, hle, hg, htold⟩ := h.parked u hu
    refine ⟨hpos, hle, hg, fun e he => ?_⟩
    obtain he | he := List.mem_append.1 he
    · exact htold e he
    · cases List.mem_singleton.1 he
      exact Ne.symm hne
  case gone =>
    rw [harrived]
    exact h.gone
  case told =>
    rw [harrived]
    intro e he
    obtain he | he := List.mem_append.1 he
    · exact h.told e he
    · cases List.mem_singleton.1 he
      exact ⟨hle, hg, Nat.le_refl _⟩
  case accounted =>
    rw [hparked, harrived]
    intro u hpos hle
    by_cases e : u = t
    · exact .inr (.inr ⟨_, List.mem_append_right _ (List.mem_singleton.2 rfl), e.symm⟩)
    · obtain hu | hu | ⟨e', he, hu⟩ := h.accounted u hpos hle
      · exact .inl ((List.mem_erase_of_ne e).2 hu)
      · exact .inr (.inl hu)
      · exact .inr (.inr ⟨e', List.mem_append_left _ he, hu⟩)

theorem Calls.step (h : x.Calls) (hs : Step g x e y) : y.Calls := by
  cases hs with
  | wake s hl => obtain ⟨-, ⟨rfl, -⟩ | ⟨rfl, -⟩⟩ := Session.look_cases hl <;> exact { h with }
  | expire | terminate => exact { h with }
  | refresh => exact { h with }
  | same => exact h
  | pass n =>
    exact { h with
      came_le := fun a ha => Nat.le_add_right_of_le (h.came_le a ha)
      told := fun e he => ⟨(h.told e he).1, (h.told e he).2.1,
        Nat.le_add_right_of_le (h.told e he).2.2⟩ }
  | come => exact h.come
  | go t _ ht => exact h.go ht
  | answer t a s ht hs =>
    obtain ⟨hp, ha⟩ := Session.parked_of_settled? hs
    exact h.tell ht hp ha

/-! ## Why they are told something now -/

/-- A parked keep-alive that is not the newest was overtaken at this instant; if the session
has ended, that was at this instant, or the keep-alive has come now; if there is a renewal,
the warning is due now, or the keep-alive has come now. -/
structure Due (f : LeaseConfig) (x : Vigil) : Prop where
  overtaken : ∀ t ∈ x.session.parked, t ≠ x.session.arrived →
    x.came[t]? = some x.now ∧ x.session.ended = false ∧ x.session.renewal = false ∧
      x.session.moved = false ∧ x.now < x.session.wake
  live : x.session.ended = false → x.overAt = none
  ended : x.session.ended = true → ∃ T, x.overAt = some T ∧ T ≤ x.now ∧
    ∀ t ∈ x.session.parked, ∀ a, x.came[t - 1]? = some a → x.now = max a T
  renewed : x.session.ended = false → x.session.renewal = true →
    ∀ t ∈ x.session.parked, ∀ a, x.came[t - 1]? = some a →
      x.now = max a (x.session.deadline - f.warning)

theorem due_start (f : LeaseConfig) (c : Client) (now : Nat) : (start f c now).Due f where
  overtaken _ h := by cases h
  live _ := rfl
  ended h := by cases h
  renewed _ h := by cases h

/-- The watch has nothing to do while somebody is overtaken. -/
theorem Due.newest_of_awake (h : x.Due f) (hl : x.session.look x.now ≠ .asleep) {t : Nat}
    (ht : t ∈ x.session.parked) : t = x.session.arrived := by
  by_cases e : t = x.session.arrived
  · exact e
  · obtain ⟨-, -, -, hm, hw⟩ := h.overtaken t ht e
    exact absurd (Session.look_of_sleep hm hw) hl

/-- The end comes at this instant. -/
theorem Calls.due_close (hc : x.Calls)
    (hn : ∀ t ∈ x.session.parked, t = x.session.arrived) : x.close.Due f where
  overtaken t ht e := absurd (hn t ht) e
  live := nofun
  ended _ := ⟨x.now, rfl, Nat.le_refl _, fun t ht a ha => by
    obtain ⟨b, hb, hle⟩ := hc.came ht
    have : x.came[t - 1]? = some a := ha
    rw [hb] at this
    cases this
    exact (Nat.max_eq_right hle).symm⟩
  renewed := nofun

/-- With fewer parked, the same is due. -/
theorem Due.of_subset (h : x.Due f) {ts : List Nat} (hs : ∀ t ∈ ts, t ∈ x.session.parked)
    (gone : List Nat) (told : List Told) :
    Due f { x with session := { x.session with parked := ts }, gone, told } where
  overtaken t ht := h.overtaken t (hs t ht)
  live := h.live
  ended he := by
    obtain ⟨T, hT, hle, ha⟩ := h.ended he
    exact ⟨T, hT, hle, fun t ht => ha t (hs t ht)⟩
  renewed he hr t ht := h.renewed he hr t (hs t ht)

/-- Whoever is parked when another one comes is overtaken now. -/
theorem Due.come (hf : f.Fits g) (ht : x.session.Timed g f x.now) (hc : x.Calls) (h : x.Due f)
    (hq : x.quiet = true) :
    Due f { x with session := x.session.arrive, came := x.came ++ [x.now] } := by
  have hnew : ∀ t ∈ x.session.arrive.parked, t ≠ x.session.arrive.arrived →
      t ∈ x.session.parked := fun t htp e => by
    obtain htp | htp := List.mem_append.1 htp
    · exact htp
    · exact absurd (List.mem_singleton.1 htp) e
  have hcame : ∀ a, (x.came ++ [x.now])[x.session.arrive.arrived - 1]? = some a → x.now = a :=
    fun a ha => by
      have : x.session.arrive.arrived - 1 = x.came.length := hc.came_length.symm
      rw [this, List.getElem?_concat_length] at ha
      cases ha
      rfl
  refine ⟨fun t htp e => ?_, h.live, fun he => ?_, fun he hr t htp a ha => ?_⟩
  · obtain ⟨he, rfl, hr⟩ := Session.waiting_of_quiet hq (hnew t htp e)
    obtain ⟨hm, hw, -⟩ := ht.lt_of_quiet hf he hq
    refine ⟨?_, he, hr, hm, hw⟩
    rw [← hc.came_length, List.getElem?_concat_length]
  · obtain ⟨T, hT, hle, -⟩ := h.ended he
    refine ⟨T, hT, hle, fun t htp a ha => ?_⟩
    by_cases e : t = x.session.arrive.arrived
    · subst e
      have := hcame a ha
      show x.now = max a T
      omega
    · have := (Session.waiting_of_quiet hq (hnew t htp e)).1
      exact absurd (this.symm.trans he) (by decide)
  · by_cases e : t = x.session.arrive.arrived
    · subst e
      have := hcame a ha
      have hd := (ht.warned_le _ ((ht.renewal_iff he).1 hr)).1
      show x.now = max a (x.session.deadline - f.warning)
      omega
    · have := (Session.waiting_of_quiet hq (hnew t htp e)).2.2
      exact absurd (this.symm.trans hr) (by decide)

theorem Due.step (hf : f.Fits g) (ht : x.session.Timed g f x.now) (hc : x.Calls)
    (h : x.Due f) (hs : Step g x e y) : y.Due f := by
  cases hs with
  | same => exact h
  | wake s hl =>
    have hn : ∀ t ∈ x.session.parked, t = x.session.arrived := fun t ht =>
      h.newest_of_awake (by simp [hl]) ht
    obtain ⟨he, ⟨rfl, -⟩ | ⟨rfl, hm, hw, hd, hwarn⟩⟩ := Session.look_cases hl
    · exact { h with overtaken := fun t ht e => absurd (hn t ht) e }
    · obtain ⟨hle, hne⟩ := Session.warnable_iff.1 hwarn
      refine ⟨fun t ht e => absurd (hn t ht) e, h.live, h.ended, fun _ _ t htp a ha => ?_⟩
      obtain ⟨b, hb, hble⟩ := hc.came htp
      have hab : x.came[t - 1]? = some a := ha
      rw [hb] at hab
      cases hab
      have hprompt := ht.prompt he (List.ne_nil_of_mem htp) hne
      rw [ht.config] at hle
      show x.now = max a (x.session.deadline - f.warning)
      omega
  | expire hl => exact hc.due_close fun t ht => h.newest_of_awake (by simp [hl]) ht
  | answer t a s htp hs =>
    obtain ⟨he, -, rfl⟩ | ⟨he, -, -, rfl⟩ | ⟨he, -, hr, -, rfl⟩ := Session.settled?_cases hs
    · exact h.of_subset (fun u hu => List.mem_of_mem_erase hu) _ _
    · exact h.of_subset (fun u hu => List.mem_of_mem_erase hu) _ _
    · -- nobody is overtaken while there is a renewal
      refine ⟨fun u hu e => ?_, fun _ => h.live he, fun e => ?_, nofun⟩
      · have := (h.overtaken u (List.mem_of_mem_erase hu) e).2.2.1
        rw [hr] at this
        cases this
      · exact absurd (he.symm.trans e) (by decide)
  | come hq => exact h.come hf ht hc hq
  | go t hq _ => exact h.of_subset (fun u hu => List.mem_of_mem_erase hu) _ _
  | refresh hq he =>
    exact ⟨fun t ht e => absurd (Session.waiting_of_quiet hq ht).2.1 e, h.live, h.ended, nofun⟩
  | terminate hq he => exact hc.due_close fun t ht => (Session.waiting_of_quiet hq ht).2.1
  | pass n hq _ =>
    refine ⟨fun t ht e => absurd (Session.waiting_of_quiet hq ht).2.1 e, h.live, fun he => ?_,
      fun he hr t htp => ?_⟩
    · obtain ⟨T, hT, hle, -⟩ := h.ended he
      refine ⟨T, hT, Nat.le_add_right_of_le hle, fun t htp => ?_⟩
      have := (Session.waiting_of_quiet hq htp).1
      exact absurd (this.symm.trans he) (by decide)
    · have := (Session.waiting_of_quiet hq htp).2.2
      exact absurd (this.symm.trans hr) (by decide)

theorem timed_step (hg : 0 < g) (hf : f.Fits g) (ht : x.session.Timed g f x.now) (hc : x.Calls)
    (h : x.Due f) (hs : Step g x e y) : y.session.Timed g f y.now := by
  cases hs with
  | same => exact ht
  | wake s hl =>
    obtain ⟨-, ⟨rfl, -⟩ | ⟨rfl, -, -, hd, hwarn⟩⟩ := Session.look_cases hl
    · exact ht.aim
    · exact ht.warn hd (Session.warnable_iff.1 hwarn).1
  | expire | terminate => exact ht.close
  | answer t a s htp hs =>
    obtain ⟨-, -, rfl⟩ | ⟨-, -, -, rfl⟩ | ⟨he, rfl, hr, -, rfl⟩ := Session.settled?_cases hs
    · exact ht.abandon t
    · exact ht.abandon t
    · -- whoever takes a renewal is alone
      refine ht.extend hf he hr (List.eq_nil_iff_forall_not_mem.2 fun u hu => ?_)
      obtain ⟨hne, hu⟩ := hc.nodup.mem_erase_iff.1 hu
      have := (h.overtaken u hu hne).2.2.1
      exact absurd (this.symm.trans hr) (by decide)
  | come hq => exact ht.arrive hf hq
  | go t => exact ht.abandon t
  | refresh => exact ht.refresh hf
  | pass n hq hn => exact ht.pass hg hf hq hn

/-! ## What was told was right -/

/-- Why a keep-alive was told what it was told, and when: a newer one came; or it took the
renewal, when the warning was due or when it came itself, if that was later; or the session
had ended, then or before it came. -/
inductive Right (f : LeaseConfig) (x : Vigil) (e : Told) : Prop
  | overtaken : e.ticket < e.before.arrived → e.before.ended = false →
      e.answer = ⟨e.before.lease, false⟩ → e.after.deadline = e.before.deadline →
      x.came[e.ticket]? = some e.instant → Right f x e
  | extended (a : Nat) : e.ticket = e.before.arrived → e.before.ended = false →
      e.answer = ⟨e.before.lease + f.extension, false⟩ →
      e.after.deadline = e.before.deadline + f.extension → x.came[e.ticket - 1]? = some a →
      e.instant = max a (e.before.deadline - f.warning) → Right f x e
  | ended (a T : Nat) : e.ticket = e.before.arrived → e.before.ended = true →
      e.answer = ⟨e.before.lease, true⟩ → e.after.deadline = e.before.deadline →
      x.came[e.ticket - 1]? = some a → x.overAt = some T → e.instant = max a T → Right f x e

/-- All answers were right, and no deadline was extended twice. -/
structure Log (f : LeaseConfig) (x : Vigil) : Prop where
  right : ∀ e ∈ x.told, Right f x e
  extended_lt : ∀ e ∈ x.told, e.Extends → e.before.deadline < x.session.deadline
  once : x.told.Pairwise fun e e' => e.Extends → e'.Extends → e.before.deadline < e'.before.deadline

theorem log_start (f : LeaseConfig) (c : Client) (now : Nat) : (start f c now).Log f where
  right _ h := by cases h
  extended_lt _ h := by cases h
  once := List.Pairwise.nil

/-- Later arrivals, and the end of the session, do not make an answer wrong. -/
theorem Right.mono {e : Told} (h : Right f x e)
    (hc : ∀ (i a : Nat), x.came[i]? = some a → y.came[i]? = some a)
    (ho : ∀ T, x.overAt = some T → y.overAt = some T) : Right f y e := by
  cases h with
  | overtaken ht he ha hd hi => exact .overtaken ht he ha hd (hc _ _ hi)
  | extended a ht he ha hd hi hm => exact .extended a ht he ha hd (hc _ _ hi) hm
  | ended a T ht he ha hd hi hT hm => exact .ended a T ht he ha hd (hc _ _ hi) (ho T hT) hm

/-- With nobody told anything more, the record stays right if the deadline does not fall to
one that was extended before. -/
theorem Log.mono (h : x.Log f) (ht : y.told = x.told)
    (hc : ∀ (i a : Nat), x.came[i]? = some a → y.came[i]? = some a)
    (ho : ∀ T, x.overAt = some T → y.overAt = some T)
    (hd : ∀ e ∈ x.told, e.Extends → e.before.deadline < y.session.deadline) : y.Log f where
  right e he := (h.right e (ht ▸ he)).mono hc ho
  extended_lt e he := hd e (ht ▸ he)
  once := ht ▸ h.once

/-- What was extended had at most the warning to go. -/
theorem Log.deadline_le (h : x.Log f) (hc : x.Calls) {e : Told} (he : e ∈ x.told)
    (hx : e.Extends) : e.before.deadline ≤ x.now + f.warning := by
  have hi := (hc.told e he).2.2
  cases h.right e he with
  | overtaken _ _ _ hd => exact absurd hd.symm hx
  | ended _ _ _ _ _ hd => exact absurd hd.symm hx
  | extended a _ _ _ _ _ hm => omega

theorem Log.tell (h : x.Log f) {e : Told} {s : Session} (hr : Right f x e)
    (hb : e.before = x.session) (ha : e.after.deadline = s.deadline)
    (hle : x.session.deadline ≤ s.deadline) :
    Log f { x with session := s, told := x.told ++ [e] } where
  right e' he := by
    obtain he | he := List.mem_append.1 he
    · exact (h.right e' he).mono (fun _ _ => id) fun _ => id
    · cases List.mem_singleton.1 he
      exact hr.mono (fun _ _ => id) fun _ => id
  extended_lt e' he hx := by
    show _ < s.deadline
    obtain he | he := List.mem_append.1 he
    · have := h.extended_lt e' he hx
      omega
    · cases List.mem_singleton.1 he
      unfold Told.Extends at hx
      rw [hb] at hx ⊢
      omega
  once := by
    refine List.pairwise_append.2 ⟨h.once, List.pairwise_singleton _ _, fun e' he u hu hx _ => ?_⟩
    cases List.mem_singleton.1 hu
    rw [hb]
    exact h.extended_lt e' he hx

/-- The end of a session is not written down twice. -/
theorem Log.close (h : x.Log f) (hd : x.Due f) (he : x.session.ended = false) : x.close.Log f :=
  h.mono rfl (fun _ _ => id) (fun T hT => by simp [hd.live he] at hT) h.extended_lt

/-- Whoever is told something is told it for a reason. -/
theorem Due.right (ht : x.session.Timed g f x.now) (hc : x.Calls) (h : x.Due f)
    {t : Nat} {a : KeepAlive} {s : Session} (htp : t ∈ x.session.parked)
    (hs : x.session.settled? t = some (a, s)) : Right f x ⟨t, a, x.now, x.session, s⟩ := by
  obtain ⟨c, hcame, hle⟩ := hc.came htp
  obtain ⟨he, rfl, rfl⟩ | ⟨he, hne, rfl, rfl⟩ | ⟨he, rfl, hr, rfl, rfl⟩ :=
    Session.settled?_cases hs
  · obtain ⟨T, hT, -, hnow⟩ := h.ended he
    have hnew : t = x.session.arrived := by
      by_cases e : t = x.session.arrived
      · exact e
      · exact absurd ((h.overtaken t htp e).2.1.symm.trans he) (by decide)
    exact .ended c T hnew he rfl rfl hcame hT (hnow t htp c hcame)
  · have hlt := (hc.parked t htp).2.1
    exact .overtaken (Nat.lt_of_le_of_ne hlt hne) he rfl rfl (h.overtaken t htp hne).1
  · have hcfg := ht.config
    refine .extended c rfl he ?_ ?_ hcame (h.renewed he hr _ htp c hcame)
    · rw [← hcfg]
      rfl
    · rw [← hcfg]
      exact Session.deadline_extend x.session

theorem Log.step (hf : f.Fits g) (ht : x.session.Timed g f x.now) (hc : x.Calls)
    (hd : x.Due f) (h : x.Log f) (hs : Step g x e y) : y.Log f := by
  have hold := h.extended_lt
  cases hs with
  | same => exact h
  | wake s hl =>
    obtain ⟨-, ⟨rfl, -⟩ | ⟨rfl, -⟩⟩ := Session.look_cases hl <;>
      exact h.mono rfl (fun _ _ => id) (fun _ => id) hold
  | expire hl => exact h.close hd (Session.look_over hl).1
  | answer t a s htp hs =>
    have hle : x.session.deadline ≤ (s.abandon t).deadline := by
      obtain ⟨-, -, rfl⟩ | ⟨-, -, -, rfl⟩ | ⟨-, -, -, -, rfl⟩ := Session.settled?_cases hs
      · exact Nat.le_refl _
      · exact Nat.le_refl _
      · exact Nat.le_trans (Nat.le_add_right _ _) (Nat.le_of_eq (Session.deadline_extend _).symm)
    exact h.tell (hd.right ht hc htp hs) rfl rfl hle
  | come =>
    refine h.mono rfl (fun i a ha => ?_) (fun _ => id) hold
    exact (List.getElem?_append_left (List.getElem?_eq_some_iff.1 ha).1).trans ha
  | go => exact h.mono rfl (fun _ _ => id) (fun _ => id) hold
  | refresh =>
    refine h.mono rfl (fun _ _ => id) (fun _ => id) fun e he hx => ?_
    have := h.deadline_le hc he hx
    have hlt := hf.warning_lt
    have hr : (x.session.refresh x.now).deadline = x.now + f.length := by
      rw [← ht.config]
      rfl
    show _ < (x.session.refresh x.now).deadline
    omega
  | terminate _ he => exact h.close hd he
  | pass n => exact h.mono rfl (fun _ _ => id) (fun _ => id) hold

/-! ## Runs -/

/-- All that is kept by every step. -/
structure Sound (g : Nat) (f : LeaseConfig) (x : Vigil) : Prop where
  timed : x.session.Timed g f x.now
  calls : x.Calls
  due : x.Due f
  log : x.Log f

theorem sound_start (hf : f.Fits g) (c : Client) {now : Nat} (hn : g ∣ now) :
    (start f c now).Sound g f :=
  ⟨Session.timed_begin hf c hn, calls_start f c now, due_start f c now, log_start f c now⟩

theorem Sound.step (hg : 0 < g) (hf : f.Fits g) (h : x.Sound g f) (hs : x.step? g e = some y) :
    y.Sound g f := by
  have hs := step_cases hs
  exact ⟨timed_step hg hf h.timed h.calls h.due hs, h.calls.step hs,
    h.due.step hf h.timed h.calls hs, h.log.step hf h.timed h.calls h.due hs⟩

theorem run?_cons (es : List Event) :
    x.run? g (e :: es) = some z ↔ ∃ y, x.step? g e = some y ∧ y.run? g es = some z := by
  simp [run?, List.foldlM_cons, Option.bind_eq_some_iff]

theorem Sound.run (hg : 0 < g) (hf : f.Fits g) {es : List Event} (h : x.Sound g f)
    (hr : x.run? g es = some z) : z.Sound g f :=
  invariant_of_foldlM (fun _ _ _ h => h.step hg hf) h hr

/-! ## Settling -/

/-- What happens by itself leaves less to do. -/
theorem inner_step (ht : 0 < x.session.config.tick) (hi : e.Inner) (hs : x.step? g e = some y) :
    y.now = x.now ∧ y.session.config = x.session.config ∧
      y.session.work y.now < x.session.work x.now := by
  cases step_cases hs with
  | wake s hl =>
    refine ⟨rfl, ?_, Session.work_lt_of_look ht hl⟩
    obtain ⟨-, ⟨rfl, -⟩ | ⟨rfl, -⟩⟩ := Session.look_cases hl <;> rfl
  | expire hl => exact ⟨rfl, rfl, Session.work_lt_of_over hl⟩
  | answer t a s htp ha =>
    refine ⟨rfl, ?_, Session.work_lt_of_answer htp ha⟩
    obtain ⟨-, -, rfl⟩ | ⟨-, -, -, rfl⟩ | ⟨-, -, -, -, rfl⟩ := Session.settled?_cases ha <;> rfl
  | come | go | refresh | terminate | pass => exact hi.elim
  | same _ hn => obtain rfl | rfl := hn <;> exact hi.elim

theorem exists_inner_step (g : Nat) (h : ¬ x.quiet = true) :
    ∃ e y, e.Inner ∧ x.step? g e = some y := by
  match hl : x.session.look x.now with
  | .awake s => exact ⟨.look, { x with session := s }, trivial, by simp only [step?, hl]⟩
  | .over => exact ⟨.look, x.close, trivial, by simp only [step?, hl]⟩
  | .asleep =>
    cases ha : x.session.answer? with
    | none =>
      refine absurd ?_ h
      rw [quiet, Session.quiet, Session.asleep_iff.2 hl, ha]
      rfl
    | some r =>
      obtain ⟨t, a, s⟩ := r
      obtain ⟨ht, u, hu, -⟩ := Session.settled?_of_answer? ha
      exact ⟨.answer t, x.tell t a u, trivial, by simp only [step?, if_pos ht, hu, Option.map_some]⟩

theorem inner_run (ht : 0 < x.session.config.tick) {es : List Event} (hi : ∀ e ∈ es, e.Inner)
    (hr : x.run? g es = some z) :
    z.now = x.now ∧ es.length + z.session.work z.now ≤ x.session.work x.now := by
  induction es generalizing x with
  | nil =>
    cases hr
    exact ⟨rfl, Nat.le_of_eq (Nat.zero_add _)⟩
  | cons e es ih =>
    obtain ⟨he, hi⟩ := List.forall_mem_cons.1 hi
    obtain ⟨y, hy, hr⟩ := (run?_cons es).1 hr
    obtain ⟨hn, hc, hw⟩ := inner_step ht he hy
    obtain ⟨hn', hw'⟩ := ih (hc ▸ ht) hi hr
    rw [List.length_cons]
    exact ⟨hn'.trans hn, by omega⟩

/-- Whatever happens by itself at an instant comes to an end, and then nothing can happen. -/
theorem exists_quiet (g : Nat) (ht : 0 < x.session.config.tick) :
    ∃ es z, (∀ e ∈ es, e.Inner) ∧ x.run? g es = some z ∧ z.quiet = true := by
  induction hw : x.session.work x.now using Nat.strongRecOn generalizing x with
  | ind w ih =>
    by_cases hq : x.quiet = true
    · exact ⟨[], x, by simp, rfl, hq⟩
    · obtain ⟨e, y, he, hy⟩ := exists_inner_step g hq
      obtain ⟨-, hc, hlt⟩ := inner_step ht he hy
      obtain ⟨es, z, hes, hz, hzq⟩ := ih _ (hw ▸ hlt) (hc ▸ ht) rfl
      exact ⟨e :: es, z, List.forall_mem_cons.2 ⟨he, hes⟩, (run?_cons es).2 ⟨y, hy, hz⟩, hzq⟩

/-! ## The meeting -/

/-- How a keep-alive `t` that is parked in `x` stands after the clock went on: it waits, or it
has taken the renewal at the warning. -/
inductive Met (f : LeaseConfig) (x : Vigil) (t : Nat) (z : Vigil) : Prop
  | waits : z.told = x.told → z.session.parked = [t] → z.session.arrived = t →
      z.session.ended = false → z.session.lease = x.session.lease →
      z.session.deadline = x.session.deadline → Met f x t z
  | took (e : Told) : z.now = x.session.deadline - f.warning → z.told = x.told ++ [e] →
      e.ticket = t → e.instant = z.now → e.answer = ⟨x.session.lease + f.extension, false⟩ →
      z.session.parked = [] → z.session.deadline = x.session.deadline + f.extension → Met f x t z

theorem Met.step {t : Nat} (hf : f.Fits g) (hle : y.now ≤ x.session.deadline - f.warning)
    (hlen : f.length ≤ x.session.deadline) (hy : y.Sound g f) (h : Met f x t y) (hi : e.Inner)
    (hs : y.step? g e = some z) : Met f x t z := by
  have hpos := hf.warning_pos
  have hlt := hf.warning_lt
  cases step_cases hs with
  | wake s hl =>
    obtain ⟨-, ⟨rfl, -⟩ | ⟨rfl, -⟩⟩ := Session.look_cases hl <;>
      cases h with
      | waits hto hp ha he hl hd => exact .waits hto hp ha he hl hd
      | took e hn hto ht hi ha hp hd => exact .took e hn hto ht hi ha hp hd
  | expire hl =>
    have hover := (Session.look_over hl).2.2.2
    cases h with
    | waits _ _ _ _ _ hd => omega
    | took _ _ _ _ _ _ _ hd => omega
  | answer u a s hu hans =>
    cases h with
    | took _ _ _ _ _ _ hp _ =>
      rw [hp] at hu
      cases hu
    | waits hto hp ha he hl hd =>
      rw [hp] at hu
      cases List.mem_singleton.1 hu
      obtain ⟨hen, -⟩ | ⟨-, hne, -⟩ | ⟨-, -, hr, rfl, rfl⟩ := Session.settled?_cases hans
      · exact absurd (he.symm.trans hen) (by decide)
      · exact absurd ha.symm hne
      · -- the renewal is there, so the warning has come
        have hw := (hy.timed.warned_le _ ((hy.timed.renewal_iff he).1 hr)).1
        have hcfg := hy.timed.config
        refine .took ⟨t, ⟨y.session.extend.lease, false⟩, y.now, y.session, y.session.extend⟩ ?_ ?_
          rfl rfl ?_ ?_ ?_
        · show y.now = _
          omega
        · show y.told ++ _ = _
          rw [hto]
        · show KeepAlive.mk (y.session.lease + y.session.config.extension) false = _
          rw [hl, hcfg]
        · show y.session.parked.erase t = []
          rw [hp]
          simp
        · show y.session.extend.deadline = _
          rw [Session.deadline_extend, hd, hcfg]
  | come | go | refresh | terminate | pass => exact hi.elim
  | same _ hn => obtain rfl | rfl := hn <;> exact hi.elim

theorem Met.run {t : Nat} (hg : 0 < g) (hf : f.Fits g)
    (hle : y.now ≤ x.session.deadline - f.warning) (hlen : f.length ≤ x.session.deadline)
    {es : List Event} (hy : y.Sound g f) (h : Met f x t y) (hi : ∀ e ∈ es, e.Inner)
    (hr : y.run? g es = some z) : Met f x t z := by
  induction es generalizing y with
  | nil =>
    cases hr
    exact h
  | cons e es ih =>
    obtain ⟨he, hi⟩ := List.forall_mem_cons.1 hi
    obtain ⟨u, hu, hr⟩ := (run?_cons es).1 hr
    have hn := (inner_step (hy.timed.config ▸ hf.tick_pos) he hu).1
    exact ih (hn ▸ hle) (hy.step hg hf hu) (h.step hf hle hlen hy he hu) hi hr

/-- Whoever is parked when nothing can happen is the newest and waits for a warning that is to
come. -/
theorem Sound.waiting (hf : f.Fits g) (h : x.Sound g f) (hq : x.quiet = true) {t : Nat}
    (ht : t ∈ x.session.parked) :
    x.session.parked = [t] ∧ x.session.arrived = t ∧ x.session.ended = false ∧
      x.session.renewal = false ∧ x.now < x.session.deadline - f.warning := by
  obtain ⟨he, rfl, hr⟩ := Session.waiting_of_quiet hq ht
  have hnew : ∀ u ∈ x.session.parked, u = x.session.arrived := fun u hu =>
    (Session.waiting_of_quiet hq hu).2.1
  have hw : x.session.warned ≠ some x.session.deadline := fun e => by
    have := (h.timed.renewal_iff he).2 e
    exact absurd (hr.symm.trans this) (by decide)
  refine ⟨?_, rfl, he, hr, (h.timed.lt_of_quiet hf he hq).2.2 hw⟩
  match hp : x.session.parked with
  | [] =>
    rw [hp] at ht
    cases ht
  | [u] =>
    rw [hp] at hnew
    rw [hnew u List.mem_cons_self]
  | u :: v :: us =>
    rw [hp] at hnew
    have hn := h.calls.nodup
    rw [hp, hnew u List.mem_cons_self, hnew v (by simp)] at hn
    simp at hn

/-- The clock goes on and all that can happen has happened: before the warning nothing has, and
at the warning the keep-alive that is parked has its extension. The clock does not pass the
warning. -/
theorem Sound.meeting (hg : 0 < g) (hf : f.Fits g) (h : x.Sound g f) (hq : x.quiet = true)
    {t n : Nat} (ht : t ∈ x.session.parked) (hy : x.step? g (.pass n) = some y)
    {es : List Event} (hi : ∀ e ∈ es, e.Inner) (hz : y.run? g es = some z)
    (hzq : z.quiet = true) :
    (y.now < x.session.deadline - f.warning ∧ z.told = x.told ∧ z.session.parked = [t] ∧
      z.session.deadline = x.session.deadline) ∨
    (y.now = x.session.deadline - f.warning ∧ ∃ e, z.told = x.told ++ [e] ∧ e.ticket = t ∧
      e.instant = y.now ∧ e.answer = ⟨x.session.lease + f.extension, false⟩ ∧
      z.session.parked = [] ∧ z.session.deadline = x.session.deadline + f.extension) := by
  have hlen : f.length ≤ x.session.deadline :=
    Nat.le_trans h.timed.length_le (Nat.le_add_left _ _)
  obtain ⟨hp, ha, he, hr, -⟩ := h.waiting hf hq ht
  have hys := h.step hg hf hy
  have hyx : Met f x t y ∧ y.now ≤ x.session.deadline - f.warning := by
    cases step_cases hy with
    | same hen => exact absurd (he.symm.trans hen) (by decide)
    | pass n hq hn =>
      refine ⟨.waits rfl hp ha he rfl rfl, ?_⟩
      refine hys.timed.prompt he (List.ne_nil_of_mem ht) fun e => ?_
      have := (h.timed.renewal_iff he).2 e
      exact absurd (hr.symm.trans this) (by decide)
  have hmet := hyx.1.run hg hf hyx.2 hlen hys hi hz
  have hzs := hys.run hg hf hz
  have hzn := (inner_run (hys.timed.config ▸ hf.tick_pos) hi hz).1
  cases hmet with
  | waits hto hp ha he hl hd =>
    have := (hzs.waiting hf hzq (t := t) (by simp [hp])).2.2.2.2
    exact .inl ⟨by omega, hto, hp, hd⟩
  | took e hn hto ht hi ha hp hd => exact .inr ⟨by omega, e, hto, ht, by omega, ha, hp, hd⟩

/-- A keep-alive is parked whenever the clock goes on. -/
def attended (g : Nat) : Vigil → List Event → Bool
  | _, [] => true
  | x, e :: es =>
    (match e with
      | .pass _ => !x.session.parked.isEmpty
      | _ => true) &&
    match x.step? g e with
    | some y => attended g y es
    | none => true

/-- The deadline is ahead, and stays ahead while the session is attended. -/
theorem Sound.ahead (hf : f.Fits g) (h : x.Sound g f)
    (hd : x.session.ended = false ∧ x.now < x.session.deadline) (hy : y.Sound g f)
    (hs : x.step? g e = some y) (hp : ∀ n, e = .pass n → x.session.parked ≠ [])
    (ht : e ≠ .terminate) : y.session.ended = false ∧ y.now < y.session.deadline := by
  obtain ⟨he, hlt⟩ := hd
  have hpos := hf.warning_pos
  have hwl := hf.warning_lt
  cases step_cases hs with
  | wake s hl => obtain ⟨-, ⟨rfl, -⟩ | ⟨rfl, -⟩⟩ := Session.look_cases hl <;> exact ⟨he, hlt⟩
  | expire hl =>
    have := (Session.look_over hl).2.2.2
    omega
  | answer t a s htp hans =>
    obtain ⟨hen, -⟩ | ⟨-, -, -, rfl⟩ | ⟨-, -, -, -, rfl⟩ := Session.settled?_cases hans
    · exact absurd (he.symm.trans hen) (by decide)
    · exact ⟨he, hlt⟩
    · refine ⟨he, ?_⟩
      have := Session.deadline_extend x.session
      show x.now < x.session.extend.deadline
      omega
  | come | go => exact ⟨he, hlt⟩
  | refresh =>
    refine ⟨he, ?_⟩
    have : (x.session.refresh x.now).deadline = x.now + f.length := by
      rw [← h.timed.config]
      rfl
    show x.now < (x.session.refresh x.now).deadline
    omega
  | terminate => exact absurd rfl ht
  | same hen => exact absurd (he.symm.trans hen) (by decide)
  | pass n hq hn =>
    obtain ⟨t, htp⟩ := List.exists_mem_of_ne_nil _ (hp n rfl)
    obtain ⟨-, -, -, hr, -⟩ := h.waiting hf hq htp
    have := hy.timed.prompt he (List.ne_nil_of_mem htp) fun e => by
      have := (h.timed.renewal_iff he).2 e
      exact absurd (hr.symm.trans this) (by decide)
    have hlen : f.length ≤ x.session.deadline :=
      Nat.le_trans h.timed.length_le (Nat.le_add_left _ _)
    refine ⟨he, ?_⟩
    show x.now + n * g < x.session.deadline
    have : x.now + n * g ≤ x.session.deadline - f.warning := this
    omega

theorem Sound.live_of_attended (hg : 0 < g) (hf : f.Fits g) {es : List Event} (h : x.Sound g f)
    (hd : x.session.ended = false ∧ x.now < x.session.deadline) (hr : x.run? g es = some z)
    (ha : attended g x es = true) (ht : .terminate ∉ es) : z.session.ended = false := by
  induction es generalizing x with
  | nil =>
    cases hr
    exact hd.1
  | cons e es ih =>
    obtain ⟨y, hy, hr⟩ := (run?_cons es).1 hr
    simp only [attended, hy, Bool.and_eq_true] at ha
    simp only [List.mem_cons, not_or] at ht
    obtain ⟨hne, ht⟩ := ht
    have hys := h.step hg hf hy
    refine ih hys (h.ahead hf hd hys hy (fun n hn => ?_) (Ne.symm hne)) hr ha.2 ht
    subst hn
    simpa using ha.1

/-! ## The rendezvous -/

/-- What a keep-alive can rely on. -/
structure Rendezvous (g : Nat) (f : LeaseConfig) (x : Vigil) : Prop where
  /-- When nothing can happen, at most the newest is parked. -/
  newest : x.quiet = true → x.session.parked = [] ∨ x.session.parked = [x.session.arrived]
  /-- It waits for a warning that is to come. -/
  waiting : x.quiet = true → x.session.parked ≠ [] →
    x.session.ended = false ∧ x.session.renewal = false ∧ x.now < x.session.deadline - f.warning
  /-- At the warning it has its extension, and it alone; until then nobody is told anything. -/
  meeting : x.quiet = true → ∀ t ∈ x.session.parked, ∀ n y, x.step? g (.pass n) = some y →
    ∀ es z, (∀ e ∈ es, e.Inner) → y.run? g es = some z → z.quiet = true →
    (y.now < x.session.deadline - f.warning ∧ z.told = x.told ∧ z.session.parked = [t] ∧
      z.session.deadline = x.session.deadline) ∨
    (y.now = x.session.deadline - f.warning ∧ ∃ e, z.told = x.told ++ [e] ∧ e.ticket = t ∧
      e.instant = y.now ∧ e.answer = ⟨x.session.lease + f.extension, false⟩ ∧
      z.session.parked = [] ∧ z.session.deadline = x.session.deadline + f.extension)
  /-- Whatever was told was told for a reason and at its instant. -/
  right : ∀ e ∈ x.told, Right f x e
  /-- No deadline is extended twice. -/
  once : x.told.Pairwise fun e e' => e.Extends → e'.Extends → e.before.deadline < e'.before.deadline
  /-- Everybody who came is parked, gone or has been told. -/
  accounted : ∀ t, 0 < t → t ≤ x.session.arrived →
    t ∈ x.session.parked ∨ t ∈ x.gone ∨ ∃ e ∈ x.told, e.ticket = t
  /-- Whoever went away was told nothing and took nothing. -/
  aborted : ∀ e ∈ x.told, e.ticket ∉ x.gone
  /-- Nobody is left when the session has ended. -/
  ended : x.session.ended = true → (∃ T, x.overAt = some T ∧ T ≤ x.now) ∧
    (x.quiet = true → x.session.parked = [])
  /-- At every instant it comes to the point where nothing can happen. -/
  settles : ∃ es z, (∀ e ∈ es, e.Inner) ∧ x.run? g es = some z ∧ z.quiet = true

theorem Sound.rendezvous (hg : 0 < g) (hf : f.Fits g) (h : x.Sound g f) : x.Rendezvous g f where
  newest hq := by
    by_cases hp : x.session.parked = []
    · exact .inl hp
    · obtain ⟨t, ht⟩ := List.exists_mem_of_ne_nil _ hp
      obtain ⟨hp, rfl, -⟩ := h.waiting hf hq ht
      exact .inr hp
  waiting hq hp := by
    obtain ⟨t, ht⟩ := List.exists_mem_of_ne_nil _ hp
    exact (h.waiting hf hq ht).2.2
  meeting hq t ht n y hy es z hi hz hzq := h.meeting hg hf hq ht hy hi hz hzq
  right := h.log.right
  once := h.log.once
  accounted := h.calls.accounted
  aborted e he := (h.calls.told e he).2.1
  ended he := by
    obtain ⟨T, hT, hle, -⟩ := h.due.ended he
    refine ⟨⟨T, hT, hle⟩, fun hq => List.eq_nil_iff_forall_not_mem.2 fun t ht => ?_⟩
    exact absurd ((h.waiting hf hq ht).2.2.1.symm.trans he) (by decide)
  settles := exists_quiet g (h.timed.config ▸ hf.tick_pos)

/-- **Keep-alives meet their warning.** In every run of keep-alives, refreshes, departures,
ends and the clock the rendezvous is kept, and a session with a keep-alive parked whenever the
clock goes on does not expire. -/
theorem rendezvous_of_run (hg : 0 < g) (hf : f.Fits g) (c : Client) {now : Nat} (hn : g ∣ now)
    {es : List Event} (hr : (start f c now).run? g es = some x) :
    x.Rendezvous g f ∧
      (attended g (start f c now) es = true → .terminate ∉ es → x.session.ended = false) := by
  have hs := sound_start hf c hn
  have hlt : now < (start f c now).session.deadline := by
    have := hf.warning_lt
    show now < now + f.length
    omega
  exact ⟨(hs.run hg hf hr).rendezvous hg hf, hs.live_of_attended hg hf ⟨rfl, hlt⟩ hr⟩

/-- A lease of ten milliseconds, extended by ten, with its warning three before the end. -/
def brief : LeaseConfig := ⟨ms 10, ms 10, ms 1, ms 100, ms 3, ms 1⟩

/-- A keep-alive is overtaken by a second one, which meets the warning. -/
def meeting : List Event :=
  [.look, .keepAlive, .pass 2, .keepAlive, .answer 1, .pass 5, .look, .answer 2, .look]

theorem rendezvous_of_meeting :
    ∃ x, (start brief "c" 0).run? Clock.milli meeting = some x ∧ x.Rendezvous Clock.milli brief ∧
      x.session.ended = false := by
  have hf : brief.Fits Clock.milli := by
    constructor <;> decide
  obtain ⟨x, hx⟩ := Option.isSome_iff_exists.1
    (show ((start brief "c" 0).run? Clock.milli meeting).isSome from by decide +kernel)
  obtain ⟨hr, hl⟩ := rendezvous_of_run (by decide) hf "c" (Nat.dvd_zero _) hx
  exact ⟨x, hx, hr, hl (by decide +kernel) (by decide)⟩

end Vigil

end LockCell
