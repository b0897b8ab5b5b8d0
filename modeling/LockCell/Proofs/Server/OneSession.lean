import LockCell.Proofs.Server.Recovery

/-
  LockCell.Proofs.Server.OneSession — a client has one live session at a server, and a session
  that has ended is over for good.

  A server keeps all sessions that it ever made, and whoever has a handle of one may call on
  it at any time. None of that brings an ended session back: no move changes its lease or its
  locks (`Move.past`), its calls are refused and reach neither the table nor the store, and
  every keep-alive that comes to it, or was parked in it, is told that it is over
  (`answers_of_ended`). A new session is made only when the registered one has ended, so of
  all sessions of a client one is live at most, and that one is registered
  (`one_live_session`).
-/

namespace LockCell

namespace Session

/-- An ended session and what it is later: still over, with the lease and the locks that it
had. -/
structure Past (s s' : Session) : Prop where
  client : s'.client = s.client
  ended : s'.ended = true
  start : s'.start = s.start
  lease : s'.lease = s.lease
  held : s'.held = s.held

variable {s s' s'' : Session}

theorem Past.refl (h : s.ended = true) : s.Past s := ⟨rfl, h, rfl, rfl, rfl⟩

theorem Past.trans (h : s.Past s') (h' : s'.Past s'') : s.Past s'' where
  client := h'.client.trans h.client
  ended := h'.ended
  start := h'.start.trans h.start
  lease := h'.lease.trans h.lease
  held := h'.held.trans h.held

theorem Tended.past (h : s.Tended s') (he : s.ended = true) : s.Past s' :=
  ⟨h.client, h.ended.trans he, h.start, h.lease_of_ended he, h.held⟩

/-- Parked keep-alives of an ended session are answered in the order in which they came. -/
theorem answer?_of_ended (h : s.ended = true) :
    s.answer? = s.parked.head?.map fun t => (t, ⟨s.lease, true⟩, s.abandon t) := by
  unfold answer?
  cases s.parked with
  | nil => rfl
  | cons t ps => simp [settled?, h]

end Session

namespace Server

variable {W : Client → Prop} {now : Nat} {v : Server} {k : Cluster} {i : Nat} {s : Session}

/-! ## No move brings a session back -/

theorem past_setSession {j : Nat} {t t' : Session} (hj : v.sessions[j]? = some t)
    (hi : v.sessions[i]? = some s) (he : s.ended = true) (ht : t.ended = true → t.Past t') :
    ∃ s', (v.setSession j t').sessions[i]? = some s' ∧ s.Past s' := by
  rw [sessions_setSession hj]
  split
  · rename_i e
    subst e
    rw [hi] at hj
    cases hj
    exact ⟨t', rfl, ht he⟩
  · exact ⟨s, hi, .refl he⟩

theorem Move.past {x y : Server × Cluster} (hm : Move W now x y)
    (hi : x.1.sessions[i]? = some s) (he : s.ended = true) :
    ∃ s', y.1.sessions[i]? = some s' ∧ s.Past s' := by
  cases hm with
  | @begin v k c =>
    have hlt : i < v.sessions.size := (Array.getElem?_eq_some_iff.1 hi).1
    exact ⟨s, by rw [sessions_push, if_neg (by omega), hi], .refl he⟩
  | tend hj ht => exact past_setSession hj hi he ht.past
  | refresh _ hj hl => exact past_setSession hj hi he fun h => absurd (hl.symm.trans h) (by decide)
  | call op hj =>
    rw [onSession_of_some hj]
    refine past_setSession hj hi he fun h => ?_
    show Session.Past _ (Session.call (Cluster.storeOf _) _ _ op).2.1
    rw [Session.call_of_ended _ h]
    exact .refl h
  | expire hj | terminate _ hj =>
    unfold Server.terminate
    rw [onSession_of_some hj]
    refine past_setSession hj hi he fun h => ?_
    simp only [Session.terminate, h, if_true]
    exact .refl h
  | members => exact ⟨s, hi, .refl he⟩

theorem Moves.past {x y : Server × Cluster} (hm : Moves W now x y)
    (hi : x.1.sessions[i]? = some s) (he : s.ended = true) :
    ∃ s', y.1.sessions[i]? = some s' ∧ s.Past s' := by
  induction hm with
  | refl => exact ⟨s, hi, .refl he⟩
  | tail _ hm ih =>
    obtain ⟨t, ht, hst⟩ := ih
    obtain ⟨u, hu, htu⟩ := hm.past ht hst.ended
    exact ⟨u, hu, hst.trans htu⟩

theorem past_performs (hv : v.Kept) (hi : v.sessions[i]? = some s) (he : s.ended = true)
    (k : Cluster) (now : Nat) (d : Deed) :
    ∃ s', (v.performs k now d).sessions[i]? = some s' ∧ s.Past s' := by
  cases d with
  | act a => exact (moves_does (k := k) hv now a).past hi he
  | table => exact ⟨s, hi, .refl he⟩

theorem past_history (hv : v.Kept ∧ v.slots.Sound) (hi : v.sessions[i]? = some s)
    (he : s.ended = true) (deeds : List (Nat × Cluster × Deed)) :
    ∃ s', (v.history deeds).sessions[i]? = some s' ∧ s.Past s' := by
  induction deeds generalizing v s with
  | nil => exact ⟨s, hi, .refl he⟩
  | cons d deeds ih =>
    obtain ⟨t, ht, hst⟩ := past_performs hv.1 hi he d.2.1 d.1 d.2.2
    obtain ⟨u, hu, htu⟩ := ih (kept_sound_performs hv d.2.1 d.1 d.2.2) ht hst.ended
    exact ⟨u, hu, hst.trans htu⟩

/-! ## What an ended session answers -/

/-- The answers to keep-alives parked in the session of that number, one after another, `m` at
most: their tickets and what they are told. -/
def answers (v : Server) (k : Cluster) (i : Nat) : Nat → List (Nat × Except Error KeepAlive)
  | 0 => []
  | m + 1 =>
    match v.answer? k i with
    | none => []
    | some (t, r, w) => (t, r) :: w.answers k i m

theorem answer?_of_ended (hi : v.sessions[i]? = some s) (he : s.ended = true) (k : Cluster) :
    v.answer? k i =
      s.parked.head?.map fun t => (t, .ok ⟨s.lease, true⟩, v.setSession i (s.abandon t)) := by
  unfold answer?
  simp only [hi, Option.bind_eq_bind, Option.bind_some, Session.answer?_of_ended he]
  cases s.parked <;> rfl

/-- All who are parked in an ended session are told so, whoever leads. -/
theorem answers_of_ended (hi : v.sessions[i]? = some s) (he : s.ended = true) (k : Cluster) :
    v.answers k i s.parked.length = s.parked.map fun t => (t, .ok ⟨s.lease, true⟩) := by
  generalize hp : s.parked = ps
  induction ps generalizing v s with
  | nil => rfl
  | cons t ps ih =>
    have hi' : (v.setSession i (s.abandon t)).sessions[i]? = some (s.abandon t) := by
      rw [sessions_setSession hi, if_pos rfl]
    have hp' : (s.abandon t).parked = ps := by simp [Session.abandon, hp]
    have hrest := ih hi' he hp'
    simp only [List.length_cons, answers, answer?_of_ended hi he, hp, List.head?_cons,
      Option.map_some, List.map_cons]
    exact congrArg _ hrest

/-- The session of that number is over for good, and says so to everyone. -/
structure Final (v : Server) (i : Nat) (s : Session) : Prop where
  held : s.held = ∅
  later : ∀ deeds, ∃ s', (v.history deeds).sessions[i]? = some s' ∧ s.Past s'
  call : ∀ k op, s.call v.store (v.locks k) op =
    (.error (.sessionExpired s.client), s, v.locks k)
  refresh : ∀ now, s.refresh? now = .error (.sessionExpired s.client)
  /-- A keep-alive that comes is told that the session is over, after those that came before it,
  and takes nothing of the lease. -/
  keepAlive : v.park i = (.parked i (s.arrived + 1), v.setSession i s.arrive) ∧
    ∀ k, (v.park i).2.answers k i (s.parked.length + 1) =
      (s.parked ++ [s.arrived + 1]).map fun t => (t, .ok ⟨s.lease, true⟩)

theorem final_of_ended (hv : v.Kept ∧ v.slots.Sound) (hi : v.sessions[i]? = some s)
    (he : s.ended = true) : v.Final i s := by
  have hp : v.park i = (.parked i (s.arrived + 1), v.setSession i s.arrive) := by
    unfold park
    rw [hi]
    rfl
  have ha : (v.setSession i s.arrive).sessions[i]? = some s.arrive := by
    rw [sessions_setSession hi, if_pos rfl]
  constructor
  case held => exact hv.1.emptied i s hi he
  case later => exact past_history hv hi he
  case call => exact fun k op => Session.call_of_ended v.node he op
  case refresh => exact fun now => by rw [Session.refresh?, if_pos he]
  case keepAlive =>
    refine ⟨hp, fun k => ?_⟩
    have h := answers_of_ended ha he k
    rw [show s.arrive.parked = s.parked ++ [s.arrived + 1] from rfl, List.length_append] at h
    rw [hp]
    exact h

/-- **Sessions are unique and never come back.** Whatever is done at a server and at its lock
table, and whoever leads meanwhile, of all sessions ever made there for a client one is live at
most, and it is the registered one. A session that has ended stays so, with no locks and with
the lease that it had; lock calls and refreshes in it are refused and change nothing, and all
its keep-alives are told that it is over. -/
theorem one_live_session (n : Node) (listen : Addr) (lease : LeaseConfig)
    (deeds : List (Nat × Cluster × Deed)) :
    let v := history { node := n, listen, lease } deeds
    (∀ (i j : Nat) (s t : Session), v.sessions[i]? = some s → v.sessions[j]? = some t →
      s.live = true → t.live = true → s.client = t.client → i = j) ∧
    (∀ (i : Nat) (s : Session), v.sessions[i]? = some s → s.live = true →
      v.session? s.client = some (i, s)) ∧
    ∀ (i : Nat) (s : Session), v.sessions[i]? = some s → s.live = false → v.Final i s := by
  intro v
  have hv : v.Kept ∧ v.slots.Sound :=
    kept_sound_history ⟨kept_fresh n listen lease, Slots.sound_empty⟩ deeds
  have live : ∀ {s : Session}, s.live = true → s.ended = false := fun h => by
    simpa [Session.live] using h
  refine ⟨fun i j s t hi hj hs ht hc => ?_, fun i s hi hs => ?_, fun i s hi hs => ?_⟩
  · exact hv.1.eq_of_live hi hj (live hs) (live ht) hc
  · exact session?_eq_some_iff.2 ⟨hv.1.newest i s hi (live hs), hi⟩
  · exact final_of_ended hv hi (by simpa [Session.live] using hs)

/-- A client loses its lease with a keep-alive parked, comes back and takes its lock again, and
its old session is called on. -/
def returned : List (Nat × Cluster × Deed) :=
  let k := (Cluster.empty.elect "a").commit (.set "/L" [])
  [(0, k, .act (.request (.initSession "x"))), (0, k, .act (.park 0)),
    (1, k, .act (.request (.acquireLock "x" "/L" .exclusive))), (2, k, .act (.terminate 0)),
    (3, k, .act (.request (.keepAlive "x" (some (.ofList [("/L", Mode.exclusive)]))))),
    (4, k.stepDown, .act (.park 0)), (4, k.stepDown, .act (.call 0 (.releaseLock "/L"))),
    (5, k, .table "y" (.acquireLock "/L" .shared))]

theorem one_live_session_of_returned :
    let v := history { node := "a", listen := "a:1", lease := .fast } returned
    ∃ s t, v.sessions[0]? = some s ∧ s.live = false ∧ v.Final 0 s ∧
      v.sessions[1]? = some t ∧ t.live = true ∧ v.session? t.client = some (1, t) ∧
      ∀ (i : Nat) (u : Session), v.sessions[i]? = some u → u.live = true → u.client = t.client →
        i = 1 := by
  intro v
  have h := one_live_session "a" "a:1" .fast returned
  have hs : v.sessions[0]?.any (fun s => !s.live) = true := by decide +kernel
  have ht : v.sessions[1]?.any (·.live) = true := by decide +kernel
  obtain ⟨s, hs, hl⟩ := (Option.any_eq_true _ _).1 hs
  obtain ⟨t, ht, hl'⟩ := (Option.any_eq_true _ _).1 ht
  have hl : s.live = false := by simpa using hl
  refine ⟨s, t, hs, hl, h.2.2 0 s hs hl, ht, hl', h.2.1 1 t ht hl', ?_⟩
  exact fun i u hi hu hc => h.1 i 1 u t hi ht hu hl' hc

end Server

end LockCell
