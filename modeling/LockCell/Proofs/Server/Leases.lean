import LockCell.Proofs.Server.Moves

/-
  LockCell.Proofs.Server.Leases — the lease that a server owes to a client.

  A server owes a client a lease that began at `st` and runs for `l` (`Owes`) while the
  client's session there began no earlier and runs at least as long, or the lease is over
  anyway; a session that has ended was due to end. Only a refresh or an early end could take
  that away (`Move.owes`): a lease that starts over may run out sooner than one that was
  extended. A new session, a refresh and an answer to a parked keep-alive owe what they tell
  the client (`owes_of_initSession`, `owes_of_claims`, `owes_of_answer?`).
-/

namespace LockCell

/-- What a session tells a parked keep-alive unless it has ended: the lease as it is then. -/
theorem Session.live_of_answer? {s s' : Session} {t : Nat} {a : KeepAlive}
    (h : s.answer? = some (t, a, s')) (ha : a.expired = false) :
    s.ended = false ∧ a.lease = s'.lease := by
  obtain ⟨u, -, hu⟩ := List.exists_of_findSome?_eq_some h
  obtain ⟨⟨b, w⟩, hw, e⟩ := Option.map_eq_some_iff.1 hu
  cases e
  unfold Session.settled? at hw
  repeat' split at hw
  all_goals cases hw
  · cases ha
  · rename_i he _
    exact ⟨by simpa using he, rfl⟩
  · rename_i he _ _
    exact ⟨by simpa using he, rfl⟩

namespace Server

variable {W : Client → Prop} {now st l : Nat} {v : Server} {k : Cluster} {c : Client}

def Owes (v : Server) (c : Client) (st l now : Nat) : Prop :=
  ∃ i s, v.session? c = some (i, s) ∧ st ≤ s.start ∧ (s.ended = true → s.deadline ≤ now) ∧
    (l ≤ s.lease ∨ st + l ≤ now)

theorem Owes.mono (h : v.Owes c st l now) {l' now' : Nat} (hl : l' ≤ l) (hn : now ≤ now') :
    v.Owes c st l' now' := by
  obtain ⟨i, s, hs, hst, he, hd⟩ := h
  refine ⟨i, s, hs, hst, fun hs' => Nat.le_trans (he hs') hn, ?_⟩
  rcases hd with hd | hd
  · exact Or.inl (Nat.le_trans hl hd)
  · exact Or.inr (by omega)

/-- A lease that is not over is owed by a live session, which ends no earlier. -/
theorem Owes.live (h : v.Owes c st l now) (hn : now < st + l) :
    ∃ i s, v.session? c = some (i, s) ∧ s.ended = false ∧ st + l ≤ s.deadline := by
  obtain ⟨i, s, hs, hst, he, hd | hd⟩ := h
  · have hle : st + l ≤ s.deadline := by
      unfold Session.deadline
      omega
    refine ⟨i, s, hs, ?_, hle⟩
    cases hs' : s.ended with
    | false => rfl
    | true =>
      have := he hs'
      omega
  · omega

/-- What is left of a lease does not depend on the slots. -/
theorem Owes.slots (h : v.Owes c st l now) (t : Slots) :
    Server.Owes { v with slots := t } c st l now := h

/-- A session may change as long as it starts no earlier and runs no shorter, and does not end
before it was due. -/
theorem Owes.set (h : v.Owes c st l now) {i : Nat} {s s' : Session} (hi : v.sessions[i]? = some s)
    (hst : s.start ≤ s'.start) (hl : s.lease ≤ s'.lease)
    (he : s'.ended = true → s'.deadline ≤ now ∨ s.ended = true ∧ s'.deadline = s.deadline) :
    (v.setSession i s').Owes c st l now := by
  obtain ⟨j, t, ht, hjst, hje, hd⟩ := h
  obtain ⟨hr, ht⟩ := session?_eq_some_iff.1 ht
  by_cases e : j = i
  · subst e
    rw [hi] at ht
    cases ht
    refine ⟨j, s', session?_eq_some_iff.2 ⟨hr, ?_⟩, by omega, fun hs' => ?_, ?_⟩
    · rw [sessions_setSession hi, if_pos rfl]
    · rcases he hs' with he | ⟨he, hd⟩
      · exact he
      · exact hd ▸ hje he
    · rcases hd with hd | hd
      · exact Or.inl (Nat.le_trans hd hl)
      · exact Or.inr hd
  · refine ⟨j, t, session?_eq_some_iff.2 ⟨hr, ?_⟩, hjst, hje, hd⟩
    rw [sessions_setSession hi, if_neg e, ht]

/-- Whatever happens to another client's session. -/
theorem Owes.set_other (h : v.Owes c st l now) (hv : v.Kept) {i : Nat} {s : Session}
    (hi : v.sessions[i]? = some s) (hc : s.client ≠ c) (s' : Session) :
    (v.setSession i s').Owes c st l now := by
  obtain ⟨j, t, ht, rest⟩ := h
  have hjc := hv.client_of_session? ht
  obtain ⟨hr, ht⟩ := session?_eq_some_iff.1 ht
  have hne : j ≠ i := by
    intro e
    obtain rfl := e
    rw [hi] at ht
    cases ht
    exact hc hjc
  refine ⟨j, t, session?_eq_some_iff.2 ⟨hr, ?_⟩, rest⟩
  rw [sessions_setSession hi, if_neg hne, ht]

/-- A new session owes a lease of the full length from any instant before. -/
theorem owes_push (hst : st ≤ now) : (v.push c now).Owes c st v.lease.length now := by
  refine ⟨v.sessions.size, .begin c v.lease now, session?_eq_some_iff.2 ⟨?_, ?_⟩, hst,
    fun he => ?_, Or.inl (Nat.le_refl _)⟩
  · rw [registry_push, if_pos rfl]
  · rw [sessions_push, if_pos rfl]
  · cases he

theorem Owes.push (h : v.Owes c st l now) (hst : st ≤ now) {d : Client}
    (hd : ∀ i s, v.session? d = some (i, s) → s.ended = true) : (v.push d now).Owes c st l now := by
  obtain ⟨j, t, ht, hjst, hje, hl⟩ := h
  by_cases e : c = d
  · subst e
    -- the old session has ended, so that lease is over
    have hover : st + l ≤ now := by
      have := hje (hd j t ht)
      unfold Session.deadline at this
      omega
    obtain ⟨i, s, hs, hs', he, -⟩ := owes_push (v := v) (c := c) hst
    exact ⟨i, s, hs, hs', he, Or.inr hover⟩
  · obtain ⟨hr, hj⟩ := session?_eq_some_iff.1 ht
    have hlt := (Array.getElem?_eq_some_iff.1 hj).1
    refine ⟨j, t, session?_eq_some_iff.2 ⟨?_, ?_⟩, hjst, hje, hl⟩
    · rw [registry_push, if_neg e, hr]
    · rw [sessions_push, if_neg (by omega), hj]

/-- What is owed to a client stays owed while nobody refreshes or ends its sessions. -/
theorem Move.owes {x y : Server × Cluster} (hm : Move W now x y) (hv : x.1.Kept) (hw : ¬ W c)
    (hst : st ≤ now) (h : x.1.Owes c st l now) : y.1.Owes c st l now := by
  cases hm with
  | begin d hd => exact h.push hst hd
  | @tend v k i s s' hi ht =>
    refine h.set hi (Nat.le_of_eq ht.start.symm) ht.lease fun he => Or.inr ?_
    have he : s.ended = true := ht.ended ▸ he
    refine ⟨he, ?_⟩
    unfold Session.deadline
    rw [ht.start, ht.lease_of_ended he]
  | @refresh v k i s hc hi he =>
    refine h.set_other hv hi ?_ _
    intro e
    obtain rfl := e
    exact hw hc
  | @call v k i s op hi =>
    rw [onSession_of_some hi]
    refine Owes.slots (h.set hi ?_ ?_ fun he => Or.inr ?_) _
    · exact Nat.le_of_eq (by rw [Session.call_eq_held])
    · exact Nat.le_of_eq (by rw [Session.call_eq_held])
    · rw [Session.call_eq_held] at he ⊢
      exact ⟨he, rfl⟩
  | @expire v k i s hi hd =>
    unfold Server.terminate
    rw [onSession_of_some hi]
    refine Owes.slots (h.set hi ?_ ?_ fun _ => Or.inl ?_) _
    all_goals
      unfold Session.terminate
      split
    all_goals first | exact Nat.le_refl _ | exact hd
  | @terminate v k i s hc hi =>
    unfold Server.terminate
    rw [onSession_of_some hi]
    refine Owes.slots (h.set_other hv hi ?_ _) _
    intro hq
    obtain rfl := hq
    exact hw hc
  | members => exact h

theorem Moves.owes {x y : Server × Cluster} (hm : Moves W now x y) (hv : x.1.Kept) (hw : ¬ W c)
    (hst : st ≤ now) (h : x.1.Owes c st l now) : y.1.Owes c st l now := by
  have both : y.1.Kept ∧ y.1.Owes c st l now := by
    induction hm with
    | refl => exact ⟨hv, h⟩
    | tail _ hm ih => exact ⟨hm.kept ih.1, hm.owes ih.1 hw hst ih.2⟩
  exact both.2

/-! ## Sessions stay their clients' -/

/-- A session of that number, of that client. -/
def Seats (v : Server) (i : Nat) (c : Client) : Prop :=
  ∃ s, v.sessions[i]? = some s ∧ s.client = c

theorem Seats.set {i j : Nat} (h : v.Seats j c) {s s' : Session} (hi : v.sessions[i]? = some s)
    (hc : s'.client = s.client) : (v.setSession i s').Seats j c := by
  obtain ⟨t, ht, htc⟩ := h
  by_cases e : j = i
  · subst e
    rw [hi] at ht
    cases ht
    exact ⟨s', by rw [sessions_setSession hi, if_pos rfl], hc.trans htc⟩
  · exact ⟨t, by rw [sessions_setSession hi, if_neg e, ht], htc⟩

theorem Move.seats {x y : Server × Cluster} (hm : Move W now x y) {j : Nat} (h : x.1.Seats j c) :
    y.1.Seats j c := by
  cases hm with
  | @begin v k d hd =>
    obtain ⟨t, ht, htc⟩ := h
    have hlt : j < v.sessions.size := (Array.getElem?_eq_some_iff.1 ht).1
    exact ⟨t, by rw [sessions_push, if_neg (by omega), ht], htc⟩
  | tend hi ht => exact h.set hi ht.client
  | refresh _ hi _ => exact h.set hi rfl
  | call op hi =>
    rw [onSession_of_some hi]
    refine h.set hi ?_
    rw [Session.call_eq_held]
  | expire hi _ | terminate _ hi =>
    unfold Server.terminate
    rw [onSession_of_some hi]
    refine h.set hi ?_
    unfold Session.terminate
    split <;> rfl
  | members => exact h

theorem Move.lease_eq {x y : Server × Cluster} (hm : Move W now x y) : y.1.lease = x.1.lease := by
  cases hm with
  | begin | tend | refresh | members => rfl
  | call op hi => rw [onSession_of_some hi]; rfl
  | expire hi _ | terminate _ hi =>
    unfold Server.terminate
    rw [onSession_of_some hi]
    rfl

theorem Moves.seats {x y : Server × Cluster} (hm : Moves W now x y) {j : Nat}
    (h : x.1.Seats j c) : y.1.Seats j c := by
  induction hm with
  | refl => exact h
  | tail _ hm ih => exact hm.seats ih

theorem Moves.lease_eq {x y : Server × Cluster} (hm : Moves W now x y) :
    y.1.lease = x.1.lease := by
  induction hm with
  | refl => rfl
  | tail _ hm ih => exact hm.lease_eq.trans ih

/-! ## What a client is told is owed to it -/

theorem serve_initSession_of_leads (hl : k.leads v.node = true) (c : Client) (now : Nat) :
    v.serve k now (.initSession c) =
      match v.create c now with
      | .error e => (.done (.error e), v, k)
      | .ok (_, v) => (.done (.ok (.master v.listen)), v, k) := by
  unfold serve
  rw [if_pos hl]
  rfl

theorem serve_keepAlive_of_leads (hl : k.leads v.node = true) (c : Client)
    (claimed : Option (Dict Mode)) (now : Nat) :
    v.serve k now (.keepAlive c claimed) =
      ((v.keepAlive k c claimed now).1.map .kept, (v.keepAlive k c claimed now).2) := by
  unfold serve
  rw [if_pos hl]
  rfl

/-- Only the leader's answer is not an error. -/
theorem leads_of_serve {q : Request} {h : Handled Response} (hs : (v.serve k now q).1 = h)
    (hn : ∀ e, h ≠ .done (.error e)) : k.leads v.node = true := by
  cases hl : k.leads v.node with
  | true => rfl
  | false =>
    rw [serve_of_not_leads hl] at hs
    exact absurd hs.symm (hn _)

theorem owes_of_initSession {r : Response}
    (h : (v.serve k now (.initSession c)).1 = .done (.ok r)) (hst : st ≤ now) :
    (v.serve k now (.initSession c)).2.1.Owes c st v.lease.length now := by
  have hl := leads_of_serve h fun e => by simp
  rw [serve_initSession_of_leads hl] at h ⊢
  revert h
  cases hc : v.create c now with
  | error e =>
    intro h
    cases h
  | ok x =>
    intro _
    obtain ⟨i, v'⟩ := x
    obtain ⟨-, rfl⟩ := eq_push_of_create hc
    exact owes_push hst

theorem owes_of_recover (hv : v.Kept) {claimed : Dict Mode} {a : KeepAlive}
    (h : (v.recover k c claimed now).1 = .ok a) (ha : a.expired = false) (hst : st ≤ now) :
    (v.recover k c claimed now).2.1.Owes c st a.lease now := by
  unfold recover at h ⊢
  revert h
  cases hc : v.create c now with
  | error e =>
    intro h
    cases h
  | ok x =>
    obtain ⟨i, v'⟩ := x
    have hv' : v'.Kept := (moves_create (W := fun _ => False) (k := k) hc).kept hv
    obtain ⟨rfl, rfl⟩ := eq_push_of_create hc
    have hclient : ∀ s, (v.push c now).sessions[v.sessions.size]? = some s → s.client = c := by
      intro s hs
      rw [sessions_push, if_pos rfl] at hs
      cases hs
      rfl
    have hm : Moves (fun _ => False) now (v.push c now, k)
        ((v.push c now).reclaim k v.sessions.size claimed.toList).2 :=
      (moves_reclaim _ _ hclient).1
    revert hm
    dsimp only
    rcases (v.push c now).reclaim k v.sessions.size claimed.toList with ⟨_ | _, w, k'⟩ <;>
      intro hm h <;> cases h
    · cases ha
    · have hlease : w.lease = v.lease := hm.lease_eq
      show w.Owes c st w.lease.length now
      rw [hlease]
      exact hm.owes hv' id hst (owes_push hst)

/-- A server that takes claimed locks back, or starts a lease over, owes the lease it tells. -/
theorem owes_of_keepAlive (hv : v.Kept) {claimed : Dict Mode} {a : KeepAlive}
    (h : (v.keepAlive k c (some claimed) now).1 = .done (.ok a)) (ha : a.expired = false)
    (hst : st ≤ now) : (v.keepAlive k c (some claimed) now).2.1.Owes c st a.lease now := by
  have recovered : (Handled.done (v.recover k c claimed now).1 = .done (.ok a)) →
      (v.recover k c claimed now).2.1.Owes c st a.lease now :=
    fun h => owes_of_recover hv (Handled.done.inj h) ha hst
  revert h
  unfold keepAlive
  cases hs : v.session? c with
  | none => exact recovered
  | some x =>
    obtain ⟨i, s⟩ := x
    dsimp only
    by_cases he : s.ended = true
    · rw [if_pos he]
      exact recovered
    · rw [if_neg he]
      intro h
      cases h
      obtain ⟨hr, hi⟩ := session?_eq_some_iff.1 hs
      refine ⟨i, s.refresh now, session?_eq_some_iff.2 ⟨hr, ?_⟩, hst, fun he' => ?_,
        Or.inl (Nat.le_refl _)⟩
      · rw [sessions_setSession hi, if_pos rfl]
      · exact absurd he' he

theorem owes_of_claims (hv : v.Kept) {claimed : Dict Mode} {a : KeepAlive}
    (h : (v.serve k now (.keepAlive c (some claimed))).1 = .done (.ok (.kept a)))
    (ha : a.expired = false) (hst : st ≤ now) :
    (v.serve k now (.keepAlive c (some claimed))).2.1.Owes c st a.lease now := by
  have hl := leads_of_serve h fun e => by simp
  rw [serve_keepAlive_of_leads hl] at h ⊢
  refine owes_of_keepAlive hv ?_ ha hst
  revert h
  rcases (v.keepAlive k c (some claimed) now).1 with (e | b) | ⟨i, t⟩ <;> intro h <;> cases h
  rfl

/-- What becomes of a keep-alive that parks. -/
theorem done_park {i : Nat} (a : KeepAlive) : (v.park i).1 ≠ .done (.ok a) := by
  unfold park
  cases v.sessions[i]? <;> intro h <;> cases h

/-- A keep-alive without claims is not answered at once, unless with an error. -/
theorem done_keepAlive (a : KeepAlive) : (v.keepAlive k c none now).1 ≠ .done (.ok a) := by
  unfold keepAlive
  cases v.session? c with
  | none =>
    dsimp only
    cases v.create c now with
    | error e => simp
    | ok x => exact done_park a
  | some x => exact done_park a

theorem done_serve_keepAlive (r : Response) :
    (v.serve k now (.keepAlive c none)).1 ≠ .done (.ok r) := by
  intro h
  have hl := leads_of_serve h fun e => by simp
  rw [serve_keepAlive_of_leads hl] at h
  have hn : ∀ a, (v.keepAlive k c none now).1 ≠ .done (.ok a) := done_keepAlive
  revert h hn
  rcases (v.keepAlive k c none now).1 with (e | b) | ⟨i, t⟩ <;> intro h hn <;> cases h
  exact hn b rfl

theorem Seats.park {i j t : Nat} (h : v.Seats i c) (hp : (v.park i).1 = .parked j t) :
    (v.park i).2.Seats j c := by
  obtain ⟨s, hs, hc⟩ := h
  revert hp
  unfold Server.park
  rw [hs]
  intro h
  cases h
  exact ⟨s.arrive, by rw [sessions_setSession hs, if_pos rfl], hc⟩

/-- A keep-alive without claims parks in a session of its client. -/
theorem seats_of_parked (hv : v.Kept) {j t : Nat}
    (h : (v.serve k now (.keepAlive c none)).1 = .parked j t) :
    (v.serve k now (.keepAlive c none)).2.1.Seats j c := by
  have hl := leads_of_serve h fun e => by simp
  rw [serve_keepAlive_of_leads hl] at h ⊢
  have hp : (v.keepAlive k c none now).1 = .parked j t := by
    revert h
    rcases (v.keepAlive k c none now).1 with r | ⟨i, t⟩ <;> intro h <;> cases h
    rfl
  revert hp
  unfold keepAlive
  cases hs : v.session? c with
  | none =>
    dsimp only
    cases hc : v.create c now with
    | error e =>
      intro hp
      cases hp
    | ok x =>
      obtain ⟨i, v'⟩ := x
      obtain ⟨rfl, rfl⟩ := eq_push_of_create hc
      exact Seats.park ⟨.begin c v.lease now, by rw [sessions_push, if_pos rfl], rfl⟩
  | some x =>
    obtain ⟨i, s⟩ := x
    exact Seats.park ⟨s, (session?_eq_some_iff.1 hs).2, hv.client_of_session? hs⟩

theorem parked_keepAlive {claimed : Dict Mode} {j t : Nat} :
    (v.keepAlive k c (some claimed) now).1 ≠ .parked j t := by
  unfold keepAlive
  cases v.session? c with
  | none => simp
  | some x =>
    obtain ⟨i, s⟩ := x
    dsimp only
    split <;> simp

/-- Only a keep-alive without claims parks. -/
theorem request_of_parked {q : Request} {j t : Nat} (h : (v.serve k now q).1 = .parked j t) :
    ∃ c, q = .keepAlive c none := by
  have hl := leads_of_serve h fun e => by simp
  cases q with
  | keepAlive c claimed =>
    cases claimed with
    | none => exact ⟨c, rfl⟩
    | some claimed =>
      rw [serve_keepAlive_of_leads hl] at h
      have hn : (v.keepAlive k c (some claimed) now).1 ≠ .parked j t := parked_keepAlive
      revert h hn
      rcases (v.keepAlive k c (some claimed) now).1 with r | ⟨i, u⟩ <;> intro h hn <;> cases h
      exact absurd rfl hn
  | initSession c =>
    rw [serve_initSession_of_leads hl] at h
    split at h <;> cases h
  | join n a =>
    unfold serve lead at h
    rw [if_pos hl] at h
    dsimp only at h
    split at h <;> cases h
  | openLock | deleteLock | acquireLock | releaseLock =>
    unfold serve lead at h
    rw [if_pos hl] at h
    cases h

/-- A live session that answers a parked keep-alive owes what it tells, from whenever the
server owes its client anything. -/
theorem owes_of_answer? {i t : Nat} {a : KeepAlive} {v' : Server} (hv : v'.Kept)
    (h : v.answer? k i = some (t, .ok a, v')) (ha : a.expired = false) (hc : v.Seats i c)
    (ho : v'.Owes c st l now) : v'.Owes c st a.lease now := by
  obtain ⟨s, hi, h⟩ := Option.bind_eq_some_iff.1 h
  obtain ⟨⟨u, b, s'⟩, hb, h⟩ := Option.bind_eq_some_iff.1 h
  simp only [Option.pure_def, Option.some.injEq, Prod.mk.injEq] at h
  obtain ⟨-, hr, rfl⟩ := h
  obtain ⟨s₁, hi₁, hsc⟩ := hc
  rw [hi] at hi₁
  cases hi₁
  have hba : b = a := by
    unfold renewed at hr
    split at hr
    · exact Except.ok.inj hr
    · cases hr
  subst hba
  obtain ⟨he, hlease⟩ := Session.live_of_answer? hb ha
  have ht := Session.tended_answer? hb
  have hs' : (v.setSession i s').sessions[i]? = some s' := by rw [sessions_setSession hi, if_pos rfl]
  have he' : s'.ended = false := ht.ended.trans he
  have hreg := hv.newest i s' hs' he'
  rw [ht.client, hsc] at hreg
  obtain ⟨j, s₂, hj, hst, -, -⟩ := ho
  obtain ⟨hrj, hj⟩ := session?_eq_some_iff.1 hj
  rw [hreg] at hrj
  cases hrj
  rw [hs'] at hj
  cases hj
  refine ⟨i, s', session?_eq_some_iff.2 ⟨hreg, hs'⟩, hst, fun h => ?_, Or.inl (Nat.le_of_eq hlease)⟩
  rw [he'] at h
  cases h

end Server

end LockCell
