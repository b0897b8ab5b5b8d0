import LockCell.Proofs.Server.Recovery

/-
  LockCell.Proofs.Server.Orphans — owners that no live session answers for.

  A session that ends gives up its list and then releases the locks that were on it. A lock
  that does not exist in the store is not released, so its record keeps the client as an owner,
  and no session lists it any more: an orphan. Of the locks on its list the end of a session
  orphans exactly those that it owns and that do not exist (`orphan_terminate_iff`).

  Nothing else makes an orphan. What a call adds to a record it adds to the session's list, and
  what it takes from the list it has taken from the record; a recovery that fails has taken
  only locks that exist, and gives them back. So whatever is done at a server, its orphans were
  there before, or a session has ended whose lock did not exist (`accounted_does`).
-/

namespace LockCell

namespace Server

/-- The client is among the owners of the lock. -/
def Owner (v : Server) (x : Client) (p : Path) : Prop := ∃ m, v.slots.Holds x p m

/-- A live session of the client has the lock on its list. -/
def Listed (v : Server) (x : Client) (p : Path) : Prop :=
  ∃ (i : Nat) (s : Session), v.sessions[i]? = some s ∧ s.client = x ∧ s.live = true ∧ p ∈ s.held

/-- An owner that no live session answers for. -/
structure Orphan (v : Server) (x : Client) (p : Path) : Prop where
  owner : v.Owner x p
  unlisted : ¬ v.Listed x p

/-- A live session of the client, with the lock on its list, has ended. -/
def Ends (v v' : Server) (x : Client) (p : Path) : Prop :=
  ∃ (i : Nat) (s s' : Session), v.sessions[i]? = some s ∧ s.client = x ∧ s.live = true ∧
    p ∈ s.held ∧ v'.sessions[i]? = some s' ∧ s'.live = false

/-- There are no new orphans. -/
def Cleanly (v v' : Server) : Prop := ∀ x p, v'.Orphan x p → v.Orphan x p

/-- Each new orphan was left by a session that has ended while the lock did not exist. -/
def Accounted (v : Server) (k : Cluster) (v' : Server) : Prop :=
  ∀ x p, v'.Orphan x p → v.Orphan x p ∨ v.Ends v' x p ∧ p ∉ k.contents

variable {v v' v'' : Server} {k : Cluster} {i : Nat} {s s' : Session} {l : Locks Cluster}
  {x c : Client} {p : Path} {now : Nat}

theorem Cleanly.refl (v : Server) : v.Cleanly v := fun _ _ => id

theorem Cleanly.trans (h : v.Cleanly v') (h' : v'.Cleanly v'') : v.Cleanly v'' :=
  fun x p ho => h x p (h' x p ho)

theorem Cleanly.accounted (h : v.Cleanly v') (k : Cluster) : v.Accounted k v' :=
  fun x p ho => Or.inl (h x p ho)

/-- New owners are listed, and whoever was listed and is still an owner is listed. -/
theorem Cleanly.of (ho : ∀ x p, v'.Owner x p → v.Owner x p ∨ v'.Listed x p)
    (hl : ∀ x p, v'.Owner x p → v.Listed x p → v'.Listed x p) : v.Cleanly v' := by
  intro x p h
  exact ⟨(ho x p h.owner).resolve_right h.unlisted, fun hx => h.unlisted (hl x p h.owner hx)⟩

theorem owner_iff : v.Owner x p ↔ x ∈ ((v.locks k).here p).owners :=
  (Locks.mem_here_iff (l := v.locks k) x p).symm

/-! ## One session -/

theorem Listed.after (hi : v.sessions[i]? = some s) (hc : s'.client = s.client)
    (h : v.Listed x p) (hk : s.client = x → p ∈ s.held → s.ended = false →
      s'.ended = false ∧ p ∈ s'.held) (l : Locks Cluster) : (v.after i s' l).1.Listed x p := by
  obtain ⟨j, t, hj, hx, hl, hp⟩ := h
  by_cases e : j = i
  · subst e
    rw [hi] at hj
    cases hj
    obtain ⟨hl', hp'⟩ := hk hx hp (by simpa [Session.live] using hl)
    exact ⟨j, s', by rw [sessions_after hi, if_pos rfl], hc.trans hx, by simp [Session.live, hl'],
      hp'⟩
  · exact ⟨j, t, by rw [sessions_after hi, if_neg e, hj], hx, hl, hp⟩

/-- A call leaves no orphans, and the end of a session those of its locks that do not exist. -/
theorem accounted_after (hi : v.sessions[i]? = some s) (hc : s.Calls v.node (v.locks k) s' l) :
    v.Accounted k (v.after i s' l).1 := by
  have self : (v.after i s' l).1.sessions[i]? = some s' := by rw [sessions_after hi, if_pos rfl]
  have listed : ∀ x p, v.Listed x p →
      (s.client = x → p ∈ s.held → s.ended = false → s'.ended = false ∧ p ∈ s'.held) →
      (v.after i s' l).1.Listed x p := fun x p h hk => h.after hi hc.client hk l
  cases hc with
  | same _ hh =>
    refine Cleanly.accounted (.of (fun x p hx => ?_) fun x p _ h => ?_) k
    · obtain ⟨m, hm⟩ := hx
      exact Or.inl ⟨m, (hh x p m).1 hm⟩
    · exact listed x p h fun _ hp hl => ⟨hl, hp⟩
  | opened q _ _ _ _ _ hh =>
    refine Cleanly.accounted (.of (fun x p hx => ?_) fun x p _ h => ?_) k
    · obtain ⟨m, hm⟩ := hx
      exact Or.inl ⟨m, ((hh x p m).1 hm).1⟩
    · exact listed x p h fun _ hp hl => ⟨hl, hp⟩
  | acquired q k' hl _ _ _ _ hh =>
    refine Cleanly.accounted (.of (fun x p hx => ?_) fun x p _ h => ?_) k
    · obtain ⟨m, hm⟩ := hx
      rcases (hh x p m).1 hm with hm | ⟨rfl, rfl, -⟩
      · exact Or.inl ⟨m, hm⟩
      · exact Or.inr ⟨i, _, self, rfl, by simp [Session.live, hl], by simp⟩
    · exact listed x p h fun _ hp hl => ⟨hl, Dict.mem_insert_iff.2 (Or.inr hp)⟩
  | released q _ _ _ hh =>
    refine Cleanly.accounted (.of (fun x p hx => ?_) fun x p hx h => ?_) k
    · obtain ⟨m, hm⟩ := hx
      exact Or.inl ⟨m, ((hh x p m).1 hm).1⟩
    · obtain ⟨m, hm⟩ := hx
      have hne := ((hh x p m).1 hm).2
      exact listed x p h fun e hp hl =>
        ⟨hl, Dict.mem_erase_iff.2 ⟨fun he => hne ⟨e.symm, he⟩, hp⟩⟩
  | deleted q _ _ _ _ _ hh =>
    refine Cleanly.accounted (.of (fun x p hx => ?_) fun x p hx h => ?_) k
    · obtain ⟨m, hm⟩ := hx
      exact Or.inl ⟨m, ((hh x p m).1 hm).1⟩
    · obtain ⟨m, hm⟩ := hx
      have hne := ((hh x p m).1 hm).2
      exact listed x p h fun _ hp hl => ⟨hl, Dict.mem_erase_iff.2 ⟨hne, hp⟩⟩
  | closed hl _ hh =>
    intro x p ho
    obtain ⟨m, hm⟩ := ho.owner
    obtain ⟨hm, hne⟩ := (hh x p m).1 hm
    by_cases e : s.client = x ∧ p ∈ s.held
    · -- what was on the list stays in the table only if it does not exist
      obtain ⟨rfl, hp⟩ := e
      exact Or.inr ⟨⟨i, s, s.close, hi, rfl, by simp [Session.live, hl], hp, self, rfl⟩,
        fun hx => hne ⟨rfl, hp, hx⟩⟩
    · refine Or.inl ⟨⟨m, hm⟩, fun h => ho.unlisted (listed x p h fun hx hp _ => ?_)⟩
      exact absurd ⟨hx, hp⟩ e

theorem accounted_onSession {α : Type} (hs : v.slots.Sound) (i : Nat) (a : α) (op : LockOp)
    {f : Session → Locks Cluster → α × Session × Locks Cluster}
    (hf : ∀ s l, (f s l).2 = (s.call v.store l op).2) :
    v.Accounted k (v.onSession k i a f).2.1 := by
  cases hi : v.sessions[i]? with
  | none =>
    unfold onSession
    rw [hi]
    exact (Cleanly.refl v).accounted k
  | some s =>
    rw [onSession_of_some hi, hf]
    exact accounted_after hi (Session.calls_call v.node hs op)

theorem accounted_onLive {α : Type} (hs : v.slots.Sound) (c : Client) (op : LockOp)
    {f : Session → Locks Cluster → Except Error α × Session × Locks Cluster}
    (hf : ∀ s l, (f s l).2 = (s.call v.store l op).2) :
    v.Accounted k (v.onLive k c f).2.1 := by
  unfold onLive
  split
  · exact (Cleanly.refl v).accounted k
  · exact accounted_onSession hs _ _ op hf

theorem accounted_terminate (hs : v.slots.Sound) (i : Nat) :
    v.Accounted k (v.terminate k i).1 := by
  unfold terminate
  cases hi : v.sessions[i]? with
  | none =>
    unfold onSession
    rw [hi]
    exact (Cleanly.refl v).accounted k
  | some s =>
    rw [onSession_of_some hi]
    exact accounted_after hi (Session.calls_terminate v.node hs)

theorem cleanly_setSession (hi : v.sessions[i]? = some s) (hc : s'.client = s.client)
    (he : s'.ended = s.ended) (hh : s'.held = s.held) : v.Cleanly (v.setSession i s') := by
  refine .of (fun _ _ => Or.inl) fun x p _ h => ?_
  exact h.after hi hc (fun _ hp hl => ⟨he.trans hl, hh ▸ hp⟩) (v.locks .empty)

theorem cleanly_park (i : Nat) : v.Cleanly (v.park i).2 := by
  unfold park
  split
  · exact .refl v
  · rename_i s hi
    exact cleanly_setSession hi rfl rfl rfl

/-! ## New sessions -/

/-- A new session takes nothing from the lists. -/
theorem Listed.push (h : v.Listed x p) (hv : v'.sessions = v.sessions.push s) : v'.Listed x p := by
  obtain ⟨i, t, hi, hx⟩ := h
  have hlt := (Array.getElem?_eq_some_iff.1 hi).1
  exact ⟨i, t, by rw [hv, Array.getElem?_push, if_neg (by omega), hi], hx⟩

theorem cleanly_create (h : v.create c now = .ok (i, v')) : v.Cleanly v' := by
  obtain ⟨-, rfl⟩ := eq_push_of_create h
  exact .of (fun _ _ => Or.inl) fun _ _ _ h => h.push rfl

/-- A recovery lists what it takes, or gives it back. -/
theorem cleanly_recover (hs : v.slots.Sound)
    (hc : ∀ i s, v.session? c = some (i, s) → s.ended = true) (claimed : Dict Mode) :
    v.Cleanly (v.recover k c claimed now).2.1 := by
  obtain ⟨expired, v', hr, -, hreg, href⟩ := recover_exact (k := k) hs hc claimed now
  rw [hr]
  cases expired with
  | false =>
    have h := hreg rfl
    have hnew : v'.sessions[v.sessions.size]? =
        some { Session.begin c v.lease now with held := claimed } := by
      rw [h.sessions, Array.getElem?_push_size]
    refine .of (fun x p hx => ?_) fun _ _ _ hl => hl.push h.sessions
    by_cases hp : p ∈ claimed
    · obtain ⟨m, hm⟩ := Dict.getElem?_of_mem hp
      obtain ⟨j, r, hr, hx, -⟩ := hx
      rw [h.granted p m hm] at hr
      cases hr
      rcases (Record.mem_grant _ _ _ _).1 hx with rfl | hx
      · exact Or.inr ⟨_, _, hnew, rfl, rfl, hp⟩
      · exact Or.inl ((owner_iff (k := k)).2 hx)
    · obtain ⟨m, r, hr, hx, hm⟩ := hx
      rw [h.others p hp] at hr
      exact Or.inl ⟨m, r, hr, hx, hm⟩
  | true =>
    have h := href rfl
    refine .of (fun x p hx => Or.inl ?_) fun _ _ _ hl => hl.push h.sessions
    rw [owner_iff (k := k), ← h.here p]
    exact (owner_iff (k := k)).1 hx

theorem cleanly_keepAlive (hs : v.slots.Sound) (c : Client) (claimed : Option (Dict Mode)) :
    v.Cleanly (v.keepAlive k c claimed now).2.1 := by
  unfold keepAlive
  split
  · exact cleanly_park _
  · split
    · exact .refl v
    · rename_i hv
      exact (cleanly_create hv).trans (cleanly_park _)
  · rename_i i s claimed hc
    split
    · rename_i he
      refine cleanly_recover hs (fun j t ht => ?_) claimed
      rw [hc] at ht
      cases ht
      exact he
    · exact cleanly_setSession (session?_eq_some_iff.1 hc).2 rfl rfl rfl
  · rename_i claimed hc
    refine cleanly_recover hs (fun j t ht => ?_) claimed
    rw [hc] at ht
    cases ht

/-! ## All that is done at a server -/

theorem accounted_lead (hs : v.slots.Sound) (q : Request) :
    v.Accounted k (v.lead k now q).2.1 := by
  cases q with
  | initSession c =>
    simp only [lead]
    split
    · exact (Cleanly.refl v).accounted k
    · rename_i hc
      exact (cleanly_create hc).accounted k
  | keepAlive c claimed => exact (cleanly_keepAlive hs c claimed).accounted k
  | openLock c p => exact accounted_onLive hs c (.openLock p) fun _ _ => rfl
  | deleteLock c p => exact accounted_onLive hs c (.deleteLock p) fun _ _ => rfl
  | acquireLock c p m => exact accounted_onLive hs c (.acquireLock p m) fun _ _ => rfl
  | releaseLock c p => exact accounted_onLive hs c (.releaseLock p) fun _ _ => rfl
  | join n a =>
    simp only [lead]
    split <;> exact (Cleanly.refl v).accounted k

theorem accounted_does (hs : v.slots.Sound) (now : Nat) (a : Act) :
    v.Accounted k (v.does k now a).1 := by
  have same : v.Accounted k v := (Cleanly.refl v).accounted k
  cases a with
  | request q =>
    simp only [does, serve]
    split
    · exact accounted_lead hs q
    · exact same
  | create c =>
    simp only [does]
    split
    · exact same
    · rename_i hc
      exact (cleanly_create hc).accounted k
  | terminateClient c =>
    simp only [does, terminateClient]
    split
    · exact same
    · exact accounted_terminate hs _
  | keepAlive c claimed => exact (cleanly_keepAlive hs c claimed).accounted k
  | call i op => exact accounted_onSession hs i () op fun _ _ => rfl
  | park i => exact (cleanly_park i).accounted k
  | refresh i =>
    simp only [does, Session.refresh?]
    split
    · exact same
    · rename_i s hi
      cases he : s.ended with
      | true => exact same
      | false =>
        have hc : v.Cleanly (v.setSession i (s.refresh now)) := cleanly_setSession hi rfl rfl rfl
        exact hc.accounted k
  | terminate i => exact accounted_terminate hs i
  | look i =>
    rcases does_look (v := v) (k := k) now i with h | h | ⟨s, s', hi, ht, h⟩ <;> rw [h]
    · exact same
    · exact accounted_terminate hs i
    · exact (cleanly_setSession hi ht.client ht.ended ht.held).accounted k
  | answer i =>
    rcases does_answer (v := v) (k := k) now i with h | ⟨s, s', hi, ht, h⟩ <;> rw [h]
    · exact same
    · exact (cleanly_setSession hi ht.client ht.ended ht.held).accounted k
  | abandon i t =>
    simp only [does, abandon]
    split
    · exact same
    · rename_i s hi
      have hc : v.Cleanly (v.setSession i (s.abandon t)) := cleanly_setSession hi rfl rfl rfl
      exact hc.accounted k

theorem terminate_of_live (hi : v.sessions[i]? = some s) (he : s.ended = false) (k : Cluster) :
    v.terminate k i =
      v.after i s.close (Session.drain v.store s.client (v.locks k) s.held.keys) := by
  unfold terminate
  rw [onSession_of_some hi]
  simp only [Session.terminate, he]
  rfl

/-- The end of a session orphans those locks of its list that its client owns and that do not
exist, and no others of them. -/
theorem orphan_terminate_iff (hv : v.Kept) (hs : v.slots.Sound) (hi : v.sessions[i]? = some s)
    (hl : s.live = true) (hp : p ∈ s.held) :
    (v.terminate k i).1.Orphan s.client p ↔ v.Owner s.client p ∧ p ∉ k.contents := by
  have he : s.ended = false := by simpa [Session.live] using hl
  have hh := fun m => Session.holds_drain v.node (l := v.locks k) s.client s.held.keys hs
    s.client p m
  rw [terminate_of_live hi he]
  constructor
  · intro h
    obtain ⟨m, hm⟩ := h.owner
    obtain ⟨hm, hn⟩ := (hh m).1 hm
    exact ⟨⟨m, hm⟩, fun hx => hn ⟨rfl, Std.ExtTreeMap.mem_keys.2 hp, hx⟩⟩
  · intro h
    obtain ⟨⟨m, hm⟩, hx⟩ := h
    refine ⟨⟨m, (hh m).2 ⟨hm, fun h => hx h.2.2⟩⟩, fun h => ?_⟩
    obtain ⟨j, t, hj, hc, hlt, -⟩ := h
    rw [sessions_after hi] at hj
    split at hj
    · cases hj
      cases hlt
    · rename_i hne
      exact hne (hv.eq_of_live hj hi (by simpa [Session.live] using hlt) he hc)

end Server

end LockCell
