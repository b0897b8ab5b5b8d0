import LockCell.Proofs.Server.OneLeader
import LockCell.Proofs.Session.Deadline

/-
  LockCell.Proofs.Server.Deadlines — every session of a server keeps to its deadline.

  Whatever is done at a server, to each of its sessions it is a row of the things that can
  befall a session at one instant (`Session.Becomes`), and an end among them is the watch's,
  unless the session was told to end (`Act.Ends`, `befalls_does`): a recovery that fails ends
  the session that it made itself and no other. So what is true of a session under a clock is
  true of all sessions of a server under a clock, which stands while something can still
  happen in one of them and passes none of their alarms (`happens?`).
-/

namespace LockCell

namespace Session

/-- What becomes of a session at an instant; an end by a call only if `W`. -/
def Becomes (W : Prop) (now : Nat) (s s' : Session) : Prop :=
  ∃ es : List Tenure.Event, (∀ e ∈ es, e.Prompt ∧ (e = .terminate → W)) ∧
    ∀ g, (Tenure.mk s now).run? g es = some ⟨s', now⟩

variable {W : Prop} {now : Nat} {s s' s'' : Session}

theorem Becomes.refl : s.Becomes W now s := ⟨[], by simp, fun _ => rfl⟩

theorem Becomes.trans (h : s.Becomes W now s') (h' : s'.Becomes W now s'') :
    s.Becomes W now s'' := by
  obtain ⟨es, he, hr⟩ := h
  obtain ⟨es', he', hr'⟩ := h'
  refine ⟨es ++ es', fun e hm => (List.mem_append.1 hm).elim (he e) (he' e), fun g => ?_⟩
  have hg := hr g
  unfold Tenure.run? at hg ⊢
  rw [List.foldlM_append, hg]
  exact hr' g

theorem Becomes.mono {W' : Prop} (hw : W → W') (h : s.Becomes W now s') : s.Becomes W' now s' := by
  obtain ⟨es, he, hr⟩ := h
  exact ⟨es, fun e hm => ⟨(he e hm).1, fun ht => hw ((he e hm).2 ht)⟩, hr⟩

theorem becomes_of_step (e : Tenure.Event) (hp : e.Prompt) (hw : e = .terminate → W)
    (hs : ∀ g, (Tenure.mk s now).step? g e = some ⟨s', now⟩) : s.Becomes W now s' :=
  ⟨[e], by simpa using ⟨hp, hw⟩, fun g => by simp [Tenure.run?, hs g]⟩

theorem becomes_arrive (s : Session) : s.Becomes W now s.arrive :=
  becomes_of_step .keepAlive trivial nofun fun _ => rfl

theorem becomes_abandon (s : Session) (t : Nat) : s.Becomes W now (s.abandon t) :=
  becomes_of_step (.abandon t) trivial nofun fun _ => rfl

theorem becomes_call (n : Node) (s : Session) (l : Locks Cluster) (op : LockOp) :
    s.Becomes W now (s.call (Cluster.storeOf n) l op).2.1 :=
  becomes_of_step (.call n l op) trivial nofun fun _ => rfl

theorem becomes_refresh (he : s.ended = false) : s.Becomes W now (s.refresh now) :=
  becomes_of_step .refresh trivial nofun fun _ => by simp [Tenure.step?, refresh?, he]

theorem becomes_awake (h : s.look now = .awake s') : s.Becomes W now s' :=
  becomes_of_step .look trivial nofun fun _ => by simp [Tenure.step?, h]

theorem becomes_close (h : s.look now = .over) : s.Becomes W now s.close :=
  becomes_of_step .look trivial nofun fun _ => by simp [Tenure.step?, h]

theorem becomes_terminate (hw : W) (n : Node) (s : Session) (l : Locks Cluster) :
    s.Becomes W now (s.terminate (Cluster.storeOf n) l).1 := by
  refine becomes_of_step .terminate trivial (fun _ => hw) fun _ => ?_
  simp only [Tenure.step?, terminate]
  split <;> rfl

theorem becomes_answer {t : Nat} {a : KeepAlive} (h : s.answer? = some (t, a, s')) :
    s.Becomes W now s' := by
  obtain ⟨ht, u, hu, rfl⟩ := settled?_of_answer? h
  exact becomes_of_step (.answer t) trivial nofun fun _ => by simp [Tenure.step?, ht, hu]

end Session

namespace Server

/-- Something tells the session `i` to end. -/
def Act.Ends (a : Act) (v : Server) (i : Nat) : Prop :=
  a = .terminate i ∨ ∃ c s, a = .terminateClient c ∧ v.session? c = some (i, s)

/-- What becomes of the sessions of a server at an instant, the new ones among them; those
with `W` may be told to end. -/
structure Befalls (W : Nat → Prop) (now : Nat) (v v' : Server) : Prop where
  lease : v'.lease = v.lease
  old : ∀ (i : Nat) (s : Session), v.sessions[i]? = some s →
    ∃ s', v'.sessions[i]? = some s' ∧ s.Becomes (W i) now s'
  new : ∀ (i : Nat) (s' : Session), v.sessions[i]? = none → v'.sessions[i]? = some s' →
    ∃ c, (Session.begin c v.lease now).Becomes True now s'

variable {W : Nat → Prop} {now : Nat} {v v' v'' : Server} {k : Cluster} {i j : Nat}
  {s s' : Session}

theorem Befalls.refl : Befalls W now v v where
  lease := rfl
  old _ s hs := ⟨s, hs, .refl⟩
  new _ _ hn hs := by simp [hn] at hs

theorem Befalls.trans (h : Befalls W now v v') (h' : Befalls W now v' v'') :
    Befalls W now v v'' where
  lease := h'.lease.trans h.lease
  old i s hs := by
    obtain ⟨t, ht, hst⟩ := h.old i s hs
    obtain ⟨u, hu, htu⟩ := h'.old i t ht
    exact ⟨u, hu, hst.trans htu⟩
  new i u hn hu := by
    cases ht : v'.sessions[i]? with
    | none =>
      obtain ⟨c, hc⟩ := h'.new i u ht hu
      rw [h.lease] at hc
      exact ⟨c, hc⟩
    | some t =>
      obtain ⟨c, hc⟩ := h.new i t hn ht
      obtain ⟨u', hu', htu⟩ := h'.old i t ht
      rw [hu] at hu'
      cases hu'
      exact ⟨c, hc.trans (htu.mono fun _ => trivial)⟩

theorem Befalls.slots (h : Befalls W now v v') (t : Slots) :
    Befalls W now v { v' with slots := t } := ⟨h.lease, h.old, h.new⟩

theorem befalls_setSession (hi : v.sessions[i]? = some s) (h : s.Becomes (W i) now s') :
    Befalls W now v (v.setSession i s') where
  lease := rfl
  old j t ht := by
    rw [sessions_setSession hi]
    by_cases e : j = i
    · subst e
      rw [hi] at ht
      cases ht
      exact ⟨s', if_pos rfl, h⟩
    · exact ⟨t, by rw [if_neg e, ht], .refl⟩
  new j t hn ht := by
    rw [sessions_setSession hi] at ht
    by_cases e : j = i
    · subst e
      rw [hi] at hn
      cases hn
    · rw [if_neg e, hn] at ht
      cases ht

theorem befalls_push (c : Client) : Befalls W now v (v.push c now) where
  lease := rfl
  old i s hs := by
    have hlt := (Array.getElem?_eq_some_iff.1 hs).1
    exact ⟨s, by rw [sessions_push, if_neg (by omega), hs], .refl⟩
  new i t hn ht := by
    rw [sessions_push] at ht
    split at ht
    · cases ht
      exact ⟨c, .refl⟩
    · rw [hn] at ht
      cases ht

theorem befalls_create {c : Client} (h : v.create c now = .ok (i, v')) : Befalls W now v v' := by
  obtain ⟨rfl, rfl⟩ := eq_push_of_create h
  exact befalls_push c

theorem befalls_onSession {α : Type} (i : Nat) (a : α)
    {f : Session → Locks Cluster → α × Session × Locks Cluster}
    (hf : ∀ s, v.sessions[i]? = some s → s.Becomes (W i) now (f s (v.locks k)).2.1) :
    Befalls W now v (v.onSession k i a f).2.1 := by
  cases hi : v.sessions[i]? with
  | none =>
    unfold onSession
    rw [hi]
    exact .refl
  | some s =>
    rw [onSession_of_some hi]
    exact (befalls_setSession hi (hf s hi)).slots _

/-- A lock call in a session. -/
theorem befalls_call {α : Type} (i : Nat) (a : α) (op : LockOp)
    {f : Session → Locks Cluster → α × Session × Locks Cluster}
    (hf : ∀ s l, (f s l).2 = (s.call v.store l op).2) :
    Befalls W now v (v.onSession k i a f).2.1 := by
  refine befalls_onSession i a fun s _ => ?_
  rw [hf]
  exact Session.becomes_call v.node s (v.locks k) op

theorem befalls_terminate (hw : W i) : Befalls W now v (v.terminate k i).1 :=
  befalls_onSession i () fun s _ => Session.becomes_terminate hw v.node s (v.locks k)

theorem befalls_park (i : Nat) : Befalls W now v (v.park i).2 := by
  unfold park
  split
  · exact .refl
  · rename_i s hi
    exact befalls_setSession hi (Session.becomes_arrive s)

theorem befalls_reclaim (i : Nat) (claims : List (Path × Mode)) (v : Server) (k : Cluster) :
    Befalls W now v (v.reclaim k i claims).2.1 := by
  induction claims generalizing v k with
  | nil => exact .refl
  | cons x rest ih =>
    obtain ⟨p, m⟩ := x
    have ha : Befalls W now v (v.onSession k i (.ok false) fun s l => s.acquire v.store l p m).2.1 :=
      befalls_call i _ (.acquireLock p m) fun _ _ => rfl
    unfold reclaim
    generalize (v.onSession k i (Except.ok false) fun s l => s.acquire v.store l p m) = y at ha ⊢
    obtain ⟨_ | _ | _, w, k'⟩ := y
    · exact ha
    · exact ha
    · exact ha.trans (ih w k')

theorem Befalls.mono {W' : Nat → Prop} (hw : ∀ i s, v.sessions[i]? = some s → W i → W' i)
    (h : Befalls W now v v') : Befalls W' now v v' where
  lease := h.lease
  old i s hs := by
    obtain ⟨s', hs', hb⟩ := h.old i s hs
    exact ⟨s', hs', hb.mono (hw i s hs)⟩
  new := h.new

/-- The session that a failed recovery ends is the one that it made. -/
theorem befalls_recover (c : Client) (claimed : Dict Mode) :
    Befalls W now v (v.recover k c claimed now).2.1 := by
  unfold recover
  split
  · exact .refl
  · rename_i i w hw
    have hi := (eq_push_of_create hw).1
    have hr : Befalls (fun j => j = i) now v (w.reclaim k i claimed.toList).2.1 :=
      (befalls_create hw).trans (befalls_reclaim i _ w k)
    refine Befalls.mono (fun j s hs e => ?_) (W := fun j => j = i) ?_
    · have hlt := (Array.getElem?_eq_some_iff.1 hs).1
      omega
    · revert hr
      rcases w.reclaim k i claimed.toList with ⟨_ | _, u, k'⟩ <;> intro hr
      · exact hr.trans (befalls_terminate rfl)
      · exact hr

theorem befalls_keepAlive (c : Client) (claimed : Option (Dict Mode)) :
    Befalls W now v (v.keepAlive k c claimed now).2.1 := by
  unfold keepAlive
  split
  · exact befalls_park _
  · split
    · exact .refl
    · rename_i hw
      exact (befalls_create hw).trans (befalls_park _)
  · rename_i i s claimed hs
    split
    · exact befalls_recover c claimed
    · rename_i he
      have hi := (session?_eq_some_iff.1 hs).2
      exact befalls_setSession hi (Session.becomes_refresh (by simpa using he))
  · exact befalls_recover c _

theorem befalls_onLive {α : Type} (c : Client) (op : LockOp)
    {f : Session → Locks Cluster → Except Error α × Session × Locks Cluster}
    (hf : ∀ s l, (f s l).2 = (s.call v.store l op).2) :
    Befalls W now v (v.onLive k c f).2.1 := by
  unfold onLive
  split
  · exact .refl
  · exact befalls_call _ _ op hf

theorem befalls_serve (q : Request) : Befalls W now v (v.serve k now q).2.1 := by
  unfold serve
  split
  · cases q with
    | initSession c =>
      simp only [lead]
      split
      · exact .refl
      · rename_i hw
        exact befalls_create hw
    | keepAlive c claimed => exact befalls_keepAlive c claimed
    | openLock c p => exact befalls_onLive c (.openLock p) fun _ _ => rfl
    | deleteLock c p => exact befalls_onLive c (.deleteLock p) fun _ _ => rfl
    | acquireLock c p m => exact befalls_onLive c (.acquireLock p m) fun _ _ => rfl
    | releaseLock c p => exact befalls_onLive c (.releaseLock p) fun _ _ => rfl
    | join n a =>
      simp only [lead]
      split <;> exact .refl
  · exact .refl

theorem befalls_look? {x : Server × Cluster} (h : v.look? k i now = some x) :
    Befalls W now v x.1 := by
  unfold look? at h
  split at h
  · cases h
  · rename_i s hi
    split at h
    · cases h
    · rename_i s' hl
      cases h
      exact befalls_setSession hi (Session.becomes_awake hl)
    · rename_i hl
      cases h
      refine befalls_onSession i () fun t ht => ?_
      rw [hi] at ht
      cases ht
      have he : s.ended = false := (Session.look_over hl).1
      simp only [Session.terminate, he, Bool.false_eq_true, if_false]
      exact Session.becomes_close hl

theorem befalls_answer? {t : Nat} {r : Except Error KeepAlive}
    (h : v.answer? k i = some (t, r, v')) : Befalls W now v v' := by
  unfold answer? at h
  obtain ⟨s, hi, h⟩ := Option.bind_eq_some_iff.1 h
  obtain ⟨⟨u, a, s'⟩, ha, h⟩ := Option.bind_eq_some_iff.1 h
  cases h
  exact befalls_setSession hi (Session.becomes_answer ha)

/-- Whatever is done at a server, only a session that is told to does not end by its watch. -/
theorem befalls_does (v : Server) (k : Cluster) (now : Nat) (a : Act) :
    Befalls (a.Ends v) now v (v.does k now a).1 := by
  cases a with
  | request q => exact befalls_serve q
  | create c =>
    simp only [does]
    split
    · exact .refl
    · rename_i hw
      exact befalls_create hw
  | terminateClient c =>
    simp only [does, terminateClient]
    split
    · exact .refl
    · rename_i i s hs
      exact befalls_terminate (Or.inr ⟨c, s, rfl, hs⟩)
  | keepAlive c claimed => exact befalls_keepAlive c claimed
  | call i op => exact befalls_call i () op fun _ _ => rfl
  | park i => exact befalls_park i
  | refresh i =>
    simp only [does]
    split
    · exact .refl
    · rename_i s hi
      unfold Session.refresh?
      split
      · exact .refl
      · rename_i s' he
        split at he
        · cases he
        · rename_i hs
          cases he
          exact befalls_setSession hi (Session.becomes_refresh (by simpa using hs))
  | terminate i => exact befalls_terminate (Or.inl rfl)
  | look i =>
    simp only [does]
    cases h : v.look? k i now with
    | none => exact .refl
    | some x => exact befalls_look? h
  | answer i =>
    simp only [does]
    split
    · exact .refl
    · rename_i h
      exact befalls_answer? h
  | abandon i t =>
    simp only [does, abandon]
    split
    · exact .refl
    · rename_i s hi
      exact befalls_setSession hi (Session.becomes_abandon s t)

/-! ## Under the clock -/

/-- What happens to a server. -/
inductive Happening where
  /-- Something is done, over the store as it is then. -/
  | act (k : Cluster) (a : Act)
  /-- Others have worked in the lock table. -/
  | table (t : Slots)
  /-- The clock goes on by so many units. -/
  | pass (units : Nat)

/-- Nothing can happen in a session, and the clock passes no alarm if it goes on to `t`. -/
def mayPass (g : Nat) (v : Server) (now t : Nat) : Bool :=
  v.sessions.all fun s => s.quiet now && (s.ended || decide (t ≤ Clock.ceil g s.wake))

/-- What comes of a happening, or `none` if it is not the time for it. -/
def happens? (g : Nat) (x : Server × Nat) : Happening → Option (Server × Nat)
  | .act k a => some ((x.1.does k x.2 a).1, x.2)
  | .table t => some ({ x.1 with slots := t }, x.2)
  | .pass n => if x.1.mayPass g x.2 (x.2 + n * g) then some (x.1, x.2 + n * g) else none

def course? (g : Nat) (x : Server × Nat) (hs : List Happening) : Option (Server × Nat) :=
  hs.foldlM (happens? g) x

variable {g : Nat} {f : LeaseConfig} {x y : Server × Nat} {h : Happening}

theorem mayPass_iff {t : Nat} : v.mayPass g now t = true ↔ ∀ (i : Nat) (s : Session),
    v.sessions[i]? = some s → s.quiet now = true ∧ (s.ended = false → t ≤ Clock.ceil g s.wake) := by
  have one : ∀ s : Session, (s.quiet now && (s.ended || decide (t ≤ Clock.ceil g s.wake))) = true ↔
      s.quiet now = true ∧ (s.ended = false → t ≤ Clock.ceil g s.wake) := fun s => by
    cases s.ended <;> simp
  simp only [mayPass, Array.all_eq_true_iff_forall_mem, one, Array.mem_iff_getElem?]
  constructor
  · intro h i s hs
    exact h s ⟨i, hs⟩
  · rintro h s ⟨i, hs⟩
    exact h i s hs

/-- Every session is under the clock as `P` says, and its lease is `f`. -/
structure Throughout (g : Nat) (f : LeaseConfig) (P : Tenure → Prop) (x : Server × Nat) :
    Prop where
  lease : x.1.lease = f
  now_dvd : g ∣ x.2
  each : ∀ (i : Nat) (s : Session), x.1.sessions[i]? = some s → P ⟨s, x.2⟩

section Throughout

variable {P : Tenure → Prop}

theorem throughout_fresh (n : Node) (listen : Addr) (f : LeaseConfig) (hn : g ∣ now) :
    Throughout g f P ({ node := n, listen, lease := f }, now) where
  lease := rfl
  now_dvd := hn
  each i s hs := by simp at hs

/-- Let `P` be true of new sessions and kept by every step of one. -/
theorem Throughout.befalls (hnew : ∀ c t, g ∣ t → P (.start f c t))
    (hstep : ∀ x e y, P x → x.step? g e = some y → P y) (h : Throughout g f P (v, now))
    (hb : Befalls W now v v') : Throughout g f P (v', now) where
  lease := hb.lease.trans h.lease
  now_dvd := h.now_dvd
  each i s' hs' := by
    have run : ∀ {s : Session} {es : List Tenure.Event}, P ⟨s, now⟩ →
        (Tenure.mk s now).run? g es = some ⟨s', now⟩ → P ⟨s', now⟩ := fun hs hr =>
      invariant_of_foldlM (fun x e y => hstep x e y) hs hr
    cases hs : v.sessions[i]? with
    | some s =>
      obtain ⟨t, ht, es, -, hr⟩ := hb.old i s hs
      rw [hs'] at ht
      cases ht
      exact run (h.each i s hs) (hr g)
    | none =>
      obtain ⟨c, es, -, hr⟩ := hb.new i s' hs hs'
      rw [show v.lease = f from h.lease] at hr
      exact run (hnew c now h.now_dvd) (hr g)

theorem Throughout.step (hnew : ∀ c t, g ∣ t → P (.start f c t))
    (hstep : ∀ x e y, P x → x.step? g e = some y → P y) (hx : Throughout g f P x)
    (hs : happens? g x h = some y) : Throughout g f P y := by
  cases h with
  | act k a =>
    cases hs
    exact hx.befalls hnew hstep (befalls_does x.1 k x.2 a)
  | table t =>
    cases hs
    exact ⟨hx.lease, hx.now_dvd, hx.each⟩
  | pass n =>
    obtain ⟨hp, hs⟩ := Option.ite_none_right_eq_some.1 hs
    cases hs
    refine ⟨hx.lease, Nat.dvd_add hx.now_dvd (Nat.dvd_mul_left g n), fun i s hi => ?_⟩
    -- for each session this is the passing of its own clock
    obtain ⟨hq, hle⟩ := mayPass_iff.1 hp i s hi
    refine hstep ⟨s, x.2⟩ (.pass n) _ (hx.each i s hi) (if_pos ⟨hq, ?_⟩)
    cases he : s.ended with
    | true => exact Or.inl rfl
    | false => exact Or.inr (hle he)

/-- A course of things at a server is a run of each of its sessions. -/
theorem Throughout.course (hnew : ∀ c t, g ∣ t → P (.start f c t))
    (hstep : ∀ x e y, P x → x.step? g e = some y → P y) {hs : List Happening}
    (hx : Throughout g f P x) (hc : course? g x hs = some y) : Throughout g f P y :=
  invariant_of_foldlM (fun _ _ _ hx => hx.step hnew hstep) hx hc

end Throughout

/-- Every session is on time, and in whole units if the spans are. -/
structure Punctual (g : Nat) (f : LeaseConfig) (x : Server × Nat) : Prop where
  lease : x.1.lease = f
  now_dvd : g ∣ x.2
  onTime : ∀ (i : Nat) (s : Session), x.1.sessions[i]? = some s → (Tenure.mk s x.2).OnTime g f
  whole : g ∣ f.length → g ∣ f.extension →
    ∀ (i : Nat) (s : Session), x.1.sessions[i]? = some s → (Tenure.mk s x.2).Whole g

theorem punctual_fresh (n : Node) (listen : Addr) (f : LeaseConfig) (hn : g ∣ now) :
    Punctual g f ({ node := n, listen, lease := f }, now) where
  lease := rfl
  now_dvd := hn
  onTime i s hs := by simp at hs
  whole _ _ i s hs := by simp at hs

theorem punctual_iff : Punctual g f x ↔
    Throughout g f (fun t => t.OnTime g f ∧ (g ∣ f.length → g ∣ f.extension → t.Whole g)) x where
  mp h := ⟨h.lease, h.now_dvd, fun i s hi =>
    ⟨h.onTime i s hi, fun hlen hext => h.whole hlen hext i s hi⟩⟩
  mpr h := ⟨h.lease, h.now_dvd, fun i s hi => (h.each i s hi).1,
    fun hlen hext i s hi => (h.each i s hi).2 hlen hext⟩

theorem Punctual.course (hg : 0 < g) (ht : 0 < f.tick) {hs : List Happening}
    (hx : Punctual g f x) (hc : course? g x hs = some y) : Punctual g f y := by
  refine punctual_iff.2 ((punctual_iff.1 hx).course (fun c t hd => ?_) (fun x e y h hs => ?_) hc)
  · exact ⟨Tenure.onTime_start hg f c hd, fun hlen _ => ⟨hd, hlen⟩⟩
  · exact ⟨h.1.step hg ht hs, fun hlen hext => (h.2 hlen hext).step hlen hext h.1 hs⟩

/-- **Leases end at their deadlines.** For every lease whose watch sleeps for some time, in
every course of things at a server: when nothing can happen in a live session its deadline is
to come; and if anything done at the server leaves it ended, then it was told to end, or it is
the first instant of the clock that is not before the deadline it ended with, and that
deadline itself if the spans of the lease are in whole units. At every instant it comes to
the point where nothing can happen in the session. -/
theorem ends_at_deadline (hg : 0 < g) (ht : 0 < f.tick) (n : Node) (listen : Addr) {now₀ : Nat}
    (hn : g ∣ now₀) {hs : List Happening}
    (hc : course? g ({ node := n, listen, lease := f }, now₀) hs = some (v, now))
    (hi : v.sessions[i]? = some s) (he : s.ended = false) :
    (s.quiet now = true → now < s.deadline) ∧
      (∀ k a s', (v.does k now a).1.sessions[i]? = some s' → s'.ended = true →
        a.Ends v i ∨ now = Clock.ceil g s'.deadline ∧
          (g ∣ f.length → g ∣ f.extension → now = s'.deadline)) ∧
      ∃ es z, (∀ e ∈ es, e.Inner) ∧ (Tenure.mk s now).run? g es = some z ∧ z.quiet = true := by
  have hp : Punctual g f (v, now) := (punctual_fresh n listen f hn).course hg ht hc
  have ho := hp.onTime i s hi
  refine ⟨fun hq => ?_, fun k a s' hs' he' => ?_, Tenure.exists_quiet g (ho.config ▸ ht)⟩
  · obtain ⟨hw, hd⟩ := ho.ahead ht hq he
    exact Nat.lt_of_lt_of_le hw hd
  · by_cases hend : a.Ends v i
    · exact Or.inl hend
    · obtain ⟨t, hst, es, hes, hr⟩ := (befalls_does v k now a).old i s hi
      rw [hs'] at hst
      cases hst
      have hprompt : ∀ e ∈ es, e.Prompt ∧ e ≠ .terminate := fun e hm =>
        ⟨(hes e hm).1, fun ht => hend ((hes e hm).2 ht)⟩
      have hceil : now = Clock.ceil g s'.deadline := ho.over_of_prompt hg ht hprompt he (hr g) he'
      refine Or.inr ⟨hceil, fun hlen hext => ?_⟩
      have hw := (hp.whole hlen hext i s hi).run hg ht hlen hext ho (hr g)
      rw [Clock.ceil_of_dvd hg hw.deadline_dvd] at hceil
      exact hceil

/-- A lease of four milliseconds with a warning longer than that, watched every three. -/
def hasty : LeaseConfig := ⟨ms 4, ms 2, ms 1, ms 3, ms 10, ms 1⟩

/-- A lease is extended by two milliseconds, and after one it starts over, which brings its
deadline nearer. -/
def shortened : List Happening :=
  let act := Happening.act .empty
  [act (.create "c"), act (.look 0), act (.look 0), act (.park 0), act (.answer 0), act (.look 0),
   act (.look 0), .pass 1, act (.call 0 (.openLock "L")), act (.refresh 0), act (.look 0),
   act (.look 0), .pass 3, act (.look 0), .pass 1]

theorem ends_at_deadline_of_shortened :
    ∃ v now s s', course? Clock.milli ({ node := "a", listen := "a:1", lease := hasty }, 0)
        shortened = some (v, now) ∧ v.sessions[0]? = some s ∧ s.ended = false ∧
      (v.does .empty now (.look 0)).1.sessions[0]? = some s' ∧ s'.ended = true ∧
      now = s'.deadline := by
  let before := course? Clock.milli ({ node := "a", listen := "a:1", lease := hasty }, 0) shortened
  obtain ⟨⟨v, now⟩, hc⟩ := Option.isSome_iff_exists.1
    (show before.isSome from by decide +kernel)
  have hlive : before.all (fun x => x.1.sessions[0]?.any fun s => !s.ended) = true := by
    decide +kernel
  have hover : before.all (fun x =>
      (x.1.does .empty x.2 (.look 0)).1.sessions[0]?.any (·.ended)) = true := by
    decide +kernel
  rw [hc] at hlive hover
  obtain ⟨s, hs, hl⟩ := (Option.any_eq_true _ _).1 hlive
  obtain ⟨s', hs', he⟩ := (Option.any_eq_true _ _).1 hover
  have hl : s.ended = false := by simpa using hl
  have h := (ends_at_deadline (by decide) (by decide) "a" "a:1" (Nat.dvd_zero _) hc hs hl).2.1
    .empty (.look 0) s' hs' he
  refine ⟨v, now, s, s', hc, hs, hl, hs', he, ?_⟩
  rcases h with hend | ⟨-, hd⟩
  · rcases hend with e | ⟨c, t, e, -⟩ <;> cases e
  · exact hd (by decide) (by decide)

end Server

end LockCell
