import LockCell.Proofs.Cell.Retries
import LockCell.Proofs.Server.Recovery

/-
  LockCell.Proofs.Cell.Claims — a client's list of locks, and what a server makes of it.

  A server lists what a client believes if the client's live session there, if there is one,
  has every lock of the client's list (`Lists`). What others do leaves it so (`Rests`), and a
  lock call that is answered moves both lists in step (`lists_serve_request`).

  A keep-alive with claims does not make it so. Without a live session a new one takes all
  that is claimed, or ends. A live session is only started over: it has after it what it had
  before, and says yes whatever is claimed (`serve_claims_of_live`). So the server lists what
  is claimed if it did so before (`lists_serve_claims`).
-/

namespace LockCell

namespace Dict

variable {β : Type} {d e f : Dict β} {p : String} {a : β}

/-- Everything in `d` is in `e`. -/
def Within (d e : Dict β) : Prop := ∀ (p : String) (a : β), d[p]? = some a → e[p]? = some a

theorem within_iff : d.Within e ↔ ∀ x ∈ d.toList, e[x.1]? = some x.2 := by
  constructor
  · intro h x hx
    exact h x.1 x.2 (Std.ExtTreeMap.mem_toList_iff_getElem?_eq_some.1 hx)
  · intro h p a hp
    exact h (p, a) (Std.ExtTreeMap.mem_toList_iff_getElem?_eq_some.2 hp)

instance [DecidableEq β] : Decidable (d.Within e) := decidable_of_iff _ within_iff.symm

theorem Within.refl (d : Dict β) : d.Within d := fun _ _ h => h

theorem Within.trans (h : d.Within e) (h' : e.Within f) : d.Within f :=
  fun p a hp => h' p a (h p a hp)

theorem empty_within (d : Dict β) : (∅ : Dict β).Within d := by
  intro p a h
  simp at h

theorem Within.insert (h : d.Within e) (p : String) (a : β) :
    Within (d.insert p a) (e.insert p a) := by
  intro q b hq
  rw [getElem?_insert_eq_some_iff] at hq ⊢
  exact hq.imp_right fun hq => ⟨hq.1, h q b hq.2⟩

theorem Within.erase (h : d.Within e) (p : String) : Within (d.erase p) (e.erase p) := by
  intro q b hq
  rw [getElem?_erase_eq_some_iff] at hq ⊢
  exact ⟨hq.1, h q b hq.2⟩

theorem erase_within (d : Dict β) (p : String) : Within (d.erase p) d := by
  intro q b hq
  exact (getElem?_erase_eq_some_iff.1 hq).2

/-- What is new takes nothing away. -/
theorem within_insert (hp : p ∉ d) : Within d (d.insert p a) := by
  intro q b hq
  refine getElem?_insert_eq_some_iff.2 (Or.inr ⟨?_, hq⟩)
  rintro rfl
  exact hp (mem_of_getElem? hq)

end Dict

namespace LockOp

variable {op : LockOp} {d e : Dict Mode}

/-- One answer moves two lists in step. -/
theorem book_within_book (h : d.Within e) (op : LockOp) (r : Except Error Bool) :
    (op.book d r).Within (op.book e r) := by
  cases r with
  | error _ => exact h
  | ok b =>
    cases op with
    | openLock p => exact h
    | acquireLock p m =>
      cases b with
      | false => exact h
      | true => exact h.insert p m
    | releaseLock p | deleteLock p => exact h.erase p

/-- Only an acquire adds to a list. -/
theorem book_within (hop : ∀ p m, op ≠ .acquireLock p m) (d : Dict Mode) (r : Except Error Bool) :
    (op.book d r).Within d := by
  cases r with
  | error _ => exact .refl d
  | ok b =>
    cases op with
    | openLock p => exact .refl d
    | acquireLock p m => exact absurd rfl (hop p m)
    | releaseLock p | deleteLock p => exact d.erase_within p

@[simp] theorem sender?_request (op : LockOp) (c : Client) :
    (op.request c).sender? = some c := by
  cases op <;> rfl

end LockOp

namespace Server

variable {c : Client} {i j now : Nat} {v v' : Server} {k : Cluster} {s t t' : Session}
  {d e : Dict Mode}

/-- The client's live session, if it has one, has every lock of the list. -/
def Lists (v : Server) (c : Client) (d : Dict Mode) : Prop := ∀ e, v.listed? c = some e → d.Within e

/-- The client has a live session after it only if it had one before, with the same list. -/
def Rests (c : Client) (v v' : Server) : Prop := ∀ e, v'.listed? c = some e → v.listed? c = some e

theorem Lists.mono (h : v.Lists c e) (hd : d.Within e) : v.Lists c d := fun _ hl => hd.trans (h _ hl)

theorem Rests.refl : Rests c v v := fun _ h => h

theorem listed?_of_live (hs : v.session? c = some (i, s)) (he : s.ended = false) :
    v.listed? c = some s.held :=
  listed?_eq_some_iff.2 ⟨i, s, hs, he, rfl⟩

theorem live_or_over (v : Server) (c : Client) :
    (∃ i s, v.session? c = some (i, s) ∧ s.ended = false) ∨
      ∀ i s, v.session? c = some (i, s) → s.ended = true := by
  by_cases h : ∃ i s, v.session? c = some (i, s) ∧ s.ended = false
  · exact Or.inl h
  · right
    intro i s hs
    cases he : s.ended with
    | true => rfl
    | false => exact absurd ⟨i, s, hs, he⟩ h

/-! ## What others do -/

/-- What spares the client's session, if it has one, and does not make it one. -/
theorem rests_of_spares (h : v.Kept)
    (hs : ∀ i, v.Apart c i → (∀ t, v.sessions[i]? = some t → v.session? c = some (i, t)) →
      Spares c i v v') : Rests c v v' := by
  intro e he
  obtain ⟨j, t, ht, hlive, rfl⟩ := listed?_eq_some_iff.1 he
  obtain ⟨hr, hj⟩ := session?_eq_some_iff.1 ht
  cases hc : v.session? c with
  | none =>
    -- no session has the number after the next
    have hnone : v.sessions[v.sessions.size + 1]? = none := by simp
    have ha : v.Apart c (v.sessions.size + 1) := by
      refine ⟨by omega, fun d j t _ ht e => ?_⟩
      subst e
      have ht := (session?_eq_some_iff.1 ht).2
      rw [hnone] at ht
      cases ht
    have hsp := hs _ ha fun t ht => by
      rw [hnone] at ht
      cases ht
    rw [hsp.registry] at hr
    obtain ⟨u, hu, -⟩ := h.registered c j hr
    rw [session?_eq_some_iff.2 ⟨hr, hu⟩] at hc
    cases hc
  | some x =>
    obtain ⟨i, s⟩ := x
    obtain ⟨hri, hi⟩ := session?_eq_some_iff.1 hc
    have hsp := hs i (h.apart hc) fun t ht => by
      rw [hi] at ht
      cases ht
      exact hc
    rw [hsp.registry, hri] at hr
    obtain rfl := Option.some.inj hr
    obtain ⟨s', hs', he, hh⟩ := hsp.session s hi
    rw [hj] at hs'
    obtain rfl := Option.some.inj hs'
    have hsl : s.ended = false := by
      cases hse : s.ended with
      | false => rfl
      | true => exact absurd ((he hse).symm.trans hlive) (by decide)
    rw [hh hlive]
    exact listed?_of_live hc hsl

/-- Whatever is done in nobody's name, or in another client's, and to no session of this one. -/
theorem rests_does (h : v.Kept) {a : Act} (ha : a.sender? ≠ some c)
    (hc : ∀ j op, a = .call j op → ∀ t, v.session? c ≠ some (j, t)) :
    Rests c v (v.does k now a).1 := by
  refine rests_of_spares h fun i hi hs => ?_
  by_cases hj : ∃ op, a = .call i op
  · obtain ⟨op, rfl⟩ := hj
    have hnone : v.sessions[i]? = none := by
      cases ht : v.sessions[i]? with
      | none => rfl
      | some t => exact absurd (hs t ht) (hc i op rfl t)
    simp only [does, onSession, hnone]
    exact .refl
  · refine spares_does hi (fun d hd _ _ e => ha (e ▸ hd)) ?_
    cases a with
    | request q =>
      cases q <;> simp_all [Act.foreign, Act.sender?, Request.sender?]
    | call j op =>
      refine bne_iff_ne.2 fun e => hj ?_
      exact ⟨op, e ▸ rfl⟩
    | _ => rfl

/-- A keep-alive without claims parks in the session that is there. -/
theorem rests_renewal (h : v.Kept) (hs : v.session? c = some (i, s)) :
    Rests c v (v.serve k now (.keepAlive c none)).2.1 := by
  unfold serve
  split
  · simp only [lead, keepAlive, hs]
    refine rests_of_spares h fun _ _ _ => spares_park i
  · exact .refl

/-! ## Lock calls of the client -/

/-- A lock call that is answered moves the server's list as its answer moves the client's. -/
theorem lists_serve_request (v : Server) (k : Cluster) (c : Client) (now : Nat) (op : LockOp) :
    ∃ r, (v.serve k now (op.request c)).1 = .done (r.map op.response) ∧
      ∀ d, v.Lists c d → (v.serve k now (op.request c)).2.1.Lists c (op.book d r) := by
  cases hl : k.leads v.node with
  | false =>
    rw [serve_of_not_leads hl]
    exact ⟨.error k.refusal, rfl, fun d h => h⟩
  | true =>
    cases hs : v.liveSession c with
    | error e =>
      refine ⟨.error e, ?_⟩
      have hq : v.serve k now (op.request c) = (.done (.error e), v, k) := by
        unfold serve
        rw [if_pos hl]
        cases op <;> simp only [LockOp.request, lead, onLive, hs] <;> rfl
      rw [hq]
      exact ⟨rfl, fun d h => h⟩
    | ok x =>
      obtain ⟨i, s⟩ := x
      obtain ⟨hs, he⟩ := liveSession_eq_ok_iff.1 hs
      refine ⟨(s.call v.store (v.locks k) op).1, ?_, fun d h e hle => ?_⟩
      · rw [serve_request hl hs he]
      · obtain ⟨j, t, ht, -, rfl⟩ := listed?_eq_some_iff.1 hle
        rw [session?_serve_request hl hs he] at ht
        cases ht
        rw [Session.held_call]
        exact LockOp.book_within_book (h _ (listed?_of_live hs he)) op _

/-! ## Claims -/

/-- What is granted is new on the list. -/
theorem held_of_acquire {S : Store Cluster} {l l' : Locks Cluster} {p : Path} {m : Mode}
    (h : s.acquire S l p m = (.ok true, t, l')) : p ∉ s.held ∧ t.held = s.held.insert p m := by
  unfold Session.acquire Session.whenLive at h
  split at h
  · cases h
  · split at h
    · cases h
    · rename_i hp
      rcases ha : l.acquire S s.client p m with ⟨_ | _ | _, l''⟩ <;> rw [ha] at h <;> cases h
      exact ⟨hp, rfl⟩

/-- When all claims are met, the session has them and what it had before. -/
theorem within_of_reclaim (claims : List (Path × Mode)) (hi : v.sessions[i]? = some s)
    (hr : (v.reclaim k i claims).1 = true) :
    ∃ s', (v.reclaim k i claims).2.1.sessions[i]? = some s' ∧ s.held.Within s'.held ∧
      ∀ x ∈ claims, s'.held[x.1]? = some x.2 := by
  induction claims generalizing v k s with
  | nil => exact ⟨s, hi, .refl _, fun x hx => absurd hx List.not_mem_nil⟩
  | cons x claims ih =>
    obtain ⟨p, m⟩ := x
    have ho := onSession_of_some (k := k) hi (.ok false) fun s l => s.acquire v.store l p m
    rcases ha : s.acquire v.store (v.locks k) p m with ⟨_ | _ | _, s₁, l⟩
    · rw [reclaim_cons_of_ne_true claims (by simp [ha]) ho] at hr
      cases hr
    · rw [reclaim_cons_of_ne_true claims (by simp [ha]) ho] at hr
      cases hr
    · have ho : (v.onSession k i (.ok false) fun s l => s.acquire v.store l p m) =
          (.ok true, (v.after i s₁ l).1, l.store) := by
        rw [ho, ha]
        rfl
      rw [reclaim_cons_of_true claims ho] at hr ⊢
      obtain ⟨hp, hs₁⟩ := held_of_acquire ha
      obtain ⟨s', hs', hw, hc⟩ := ih ((sessions_after hi s₁ l i).trans (if_pos rfl)) hr
      rw [hs₁] at hw
      refine ⟨s', hs', (Dict.within_insert hp).trans hw, fun y hy => ?_⟩
      rcases List.mem_cons.1 hy with rfl | hy
      · exact hw p m (by simp)
      · exact hc y hy

theorem registry_terminate (v : Server) (k : Cluster) (i : Nat) :
    (v.terminate k i).1.registry = v.registry := by
  unfold terminate onSession
  split <;> rfl

theorem ended_of_terminate (hi : v.sessions[i]? = some s) :
    ∃ s', (v.terminate k i).1.sessions[i]? = some s' ∧ s'.ended = true := by
  unfold terminate
  rw [onSession_of_some hi]
  refine ⟨_, (sessions_setSession hi _ i).trans (if_pos rfl), ?_⟩
  unfold Session.terminate
  split
  · assumption
  · rfl

/-- A new session has all that was claimed, or it is over. -/
theorem lists_recover (hc : ∀ i s, v.session? c = some (i, s) → s.ended = true) (d : Dict Mode) :
    (v.recover k c d now).2.1.Lists c d := by
  obtain ⟨w, hw⟩ : ∃ w, v.create c now = .ok (v.sessions.size, w) := by
    unfold create
    split
    · rename_i i s hs
      exact ⟨_, if_pos (hc i s hs)⟩
    · exact ⟨_, rfl⟩
  obtain ⟨-, rfl⟩ := eq_push_of_create hw
  have hi : (v.push c now).sessions[v.sessions.size]? = some (.begin c v.lease now) := by
    rw [sessions_push, if_pos rfl]
  have hreg : ((v.push c now).reclaim k v.sessions.size d.toList).2.1.registry[c]? =
      some v.sessions.size := by
    have hsp := spares_reclaim (c := c) (Nat.ne_of_lt (Nat.lt_succ_self v.sessions.size)) d.toList
      (v.push c now) k
    rw [hsp.registry, registry_push, if_pos rfl]
  have hall := within_of_reclaim (k := k) d.toList hi
  have hseat : ∃ t, ((v.push c now).reclaim k v.sessions.size d.toList).2.1.sessions[
      v.sessions.size]? = some t := by
    have hm : Moves (fun _ => False) now (v.push c now, k)
        ((v.push c now).reclaim k v.sessions.size d.toList).2 :=
      (moves_reclaim _ _ fun t ht => (by rw [hi] at ht; cases ht; rfl : t.client = c)).1
    obtain ⟨t, ht, -⟩ := hm.seats ⟨_, hi, rfl⟩
    exact ⟨t, ht⟩
  simp only [recover, hw]
  revert hreg hall hseat
  rcases (v.push c now).reclaim k v.sessions.size d.toList with ⟨_ | _, u, k'⟩ <;>
    intro hreg hall hseat e he
  · obtain ⟨t, ht⟩ := hseat
    obtain ⟨t', ht', hended⟩ := ended_of_terminate (k := k') ht
    obtain ⟨j, t'', hs, hlive, -⟩ := listed?_eq_some_iff.1 he
    obtain ⟨hr, hj⟩ := session?_eq_some_iff.1 hs
    have hr : (u.terminate k' v.sessions.size).1.registry[c]? = some j := hr
    rw [registry_terminate, hreg] at hr
    obtain rfl := Option.some.inj hr
    rw [show (u.terminate k' v.sessions.size).1.sessions[v.sessions.size]? = some t'' from hj] at ht'
    obtain rfl := Option.some.inj ht'
    exact absurd (hended.symm.trans hlive) (by decide)
  · obtain ⟨t, ht, -, hclaims⟩ := hall rfl
    obtain ⟨j, t', hs, -, rfl⟩ := listed?_eq_some_iff.1 he
    obtain ⟨hr, hj⟩ := session?_eq_some_iff.1 hs
    have hr : u.registry[c]? = some j := hr
    rw [hreg] at hr
    obtain rfl := Option.some.inj hr
    rw [show u.sessions[v.sessions.size]? = some t' from hj] at ht
    obtain rfl := Option.some.inj ht
    intro p m hp
    exact hclaims (p, m) (Std.ExtTreeMap.mem_toList_iff_getElem?_eq_some.2 hp)

/-- A live session is started over and keeps the list that it has, whatever is claimed. -/
theorem serve_claims_of_live (hl : k.leads v.node = true) (hs : v.session? c = some (i, s))
    (he : s.ended = false) (d : Dict Mode) (now : Nat) :
    v.serve k now (.keepAlive c (some d)) =
      (.done (.ok (.kept ⟨(s.refresh now).lease, false⟩)), v.setSession i (s.refresh now), k) := by
  rw [serve_keepAlive_of_leads hl]
  simp [keepAlive, hs, he, Handled.map, Except.map]

/-- The server lists what is claimed if its live session did so before. -/
theorem lists_serve_claims (h : v.Lists c e) (hd : e.Within d) :
    (v.serve k now (.keepAlive c (some d))).2.1.Lists c e := by
  cases hl : k.leads v.node with
  | false =>
    rw [serve_of_not_leads hl]
    exact h
  | true =>
    rcases live_or_over v c with ⟨i, s, hs, he⟩ | hc
    · rw [serve_claims_of_live hl hs he]
      intro f hf
      obtain ⟨hr, hi⟩ := session?_eq_some_iff.1 hs
      have hs' : (v.setSession i (s.refresh now)).session? c = some (i, s.refresh now) :=
        session?_eq_some_iff.2 ⟨hr, (sessions_setSession hi _ i).trans (if_pos rfl)⟩
      obtain rfl := Option.some.inj ((listed?_of_live hs' he).symm.trans hf)
      exact h s.held (listed?_of_live hs he)
    · rw [serve_keepAlive_of_leads hl, keepAlive_eq_recover hc]
      exact (lists_recover hc d).mono hd

theorem lists_of_claims {r : Handled Response} {k' : Cluster} (h : v.Lists c e) (hd : e.Within d)
    (hs : v.serve k now (.keepAlive c (some d)) = (r, v', k')) : v'.Lists c e := by
  have hl : (v.serve k now (.keepAlive c (some d))).2.1.Lists c e := lists_serve_claims h hd
  rw [hs] at hl
  exact hl

/-- The answer to claims tells the full length of a lease. -/
theorem lease_of_recover {a : KeepAlive} (h : (v.recover k c d now).1 = .ok a) :
    a.lease = v.lease.length := by
  unfold recover at h
  split at h
  · cases h
  · rename_i i w hw
    obtain ⟨rfl, rfl⟩ := eq_push_of_create hw
    have hclient : ∀ t, (v.push c now).sessions[v.sessions.size]? = some t → t.client = c := by
      intro t ht
      rw [sessions_push, if_pos rfl] at ht
      cases ht
      rfl
    have hm : Moves (fun _ => True) now (v.push c now, k)
        ((v.push c now).reclaim k v.sessions.size d.toList).2 :=
      (moves_reclaim _ _ hclient).1
    revert h hm
    rcases (v.push c now).reclaim k v.sessions.size d.toList with ⟨_ | _, u, k'⟩ <;>
      intro h hm <;> cases h
    · have ht : Moves (fun _ => True) now (u, k') (u.terminate k' v.sessions.size) :=
        moves_terminate fun _ _ => trivial
      exact congrArg LeaseConfig.length (ht.lease_eq.trans hm.lease_eq)
    · exact congrArg LeaseConfig.length hm.lease_eq

theorem lease_of_claims (h : v.Kept) {a : KeepAlive}
    (ha : (v.serve k now (.keepAlive c (some d))).1 = .done (.ok (.kept a))) :
    a.lease = v.lease.length := by
  have hl := leads_of_serve ha fun e => by simp
  rcases live_or_over v c with ⟨i, s, hs, he⟩ | hc
  · rw [serve_claims_of_live hl hs he] at ha
    cases ha
    exact congrArg LeaseConfig.length (h.configured i s (session?_eq_some_iff.1 hs).2)
  · rw [serve_keepAlive_of_leads hl, keepAlive_eq_recover hc] at ha
    have hr : (v.recover k c d now).1 = .ok a := by
      revert ha
      rcases (v.recover k c d now).1 with e | b <;> intro ha <;> cases ha
      rfl
    exact lease_of_recover hr

end Server

end LockCell
