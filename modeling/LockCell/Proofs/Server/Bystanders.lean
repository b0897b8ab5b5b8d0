import LockCell.Proofs.Server.OneLeader

/-
  LockCell.Proofs.Server.Bystanders — what others do at a server leaves a client's list of
  locks alone.

  Only lock calls change the list of a session that stays live. Whatever else is done at the
  server — other clients' calls and recoveries, keep-alives of the client itself, looks of the
  watches, ends — the client's name stands for the session that it stood for, and the session
  has the list that it had, unless it has ended (`session?_does`).
-/

namespace LockCell

/-- In whose name a request is made. -/
def Request.sender? : Request → Option Client
  | .initSession c | .keepAlive c _ | .openLock c _ | .deleteLock c _ | .acquireLock c _ _
  | .releaseLock c _ => some c
  | .join .. => none

namespace Server

/-- Not a lock call of the client `c`, whose session has the number `i`. -/
def Act.foreign (c : Client) (i : Nat) : Act → Bool
  | .request (.openLock d _) | .request (.deleteLock d _) | .request (.acquireLock d _ _)
  | .request (.releaseLock d _) => d != c
  | .call j _ => j != i
  | _ => true

/-- The name `c` stands for what it stood for, and the session `i` has the list that it had,
unless it has ended. -/
structure Spares (c : Client) (i : Nat) (v v' : Server) : Prop where
  registry : v'.registry[c]? = v.registry[c]?
  session : ∀ s, v.sessions[i]? = some s → ∃ s', v'.sessions[i]? = some s' ∧
    (s.ended = true → s'.ended = true) ∧ (s'.ended = false → s'.held = s.held)

variable {c d : Client} {i j : Nat} {v v' v'' : Server} {k : Cluster} {now : Nat} {s t t' : Session}

theorem Spares.refl : Spares c i v v := ⟨rfl, fun s hs => ⟨s, hs, id, fun _ => rfl⟩⟩

theorem Spares.trans (h : Spares c i v v') (h' : Spares c i v' v'') : Spares c i v v'' := by
  refine ⟨h'.registry.trans h.registry, fun s hs => ?_⟩
  obtain ⟨t, ht, he, hh⟩ := h.session s hs
  obtain ⟨u, hu, he', hh'⟩ := h'.session t ht
  refine ⟨u, hu, fun e => he' (he e), fun e => (hh' e).trans (hh ?_)⟩
  cases ht' : t.ended with
  | false => rfl
  | true => exact absurd ((he' ht').symm.trans e) (by decide)

theorem Spares.slots (h : Spares c i v v') (x : Slots) : Spares c i v { v' with slots := x } :=
  ⟨h.registry, h.session⟩

theorem spares_setSession (hj : v.sessions[j]? = some t)
    (h : j = i → (t.ended = true → t'.ended = true) ∧ (t'.ended = false → t'.held = t.held)) :
    Spares c i v (v.setSession j t') := by
  refine ⟨rfl, fun s hs => ?_⟩
  rw [sessions_setSession hj]
  by_cases e : i = j
  · subst e
    rw [hj] at hs
    cases hs
    exact ⟨t', if_pos rfl, h rfl⟩
  · exact ⟨s, by rw [if_neg e, hs], id, fun _ => rfl⟩

theorem spares_tend (hj : v.sessions[j]? = some t) (h : t.Tended t') :
    Spares c i v (v.setSession j t') :=
  spares_setSession hj fun _ => ⟨fun e => h.ended.trans e, fun _ => h.held⟩

theorem spares_onSession {α : Type} (hj : j ≠ i) (a : α)
    (f : Session → Locks Cluster → α × Session × Locks Cluster) :
    Spares c i v (v.onSession k j a f).2.1 := by
  cases ht : v.sessions[j]? with
  | none =>
    unfold onSession
    rw [ht]
    exact .refl
  | some t =>
    rw [onSession_of_some ht]
    exact (spares_setSession ht fun e => absurd e hj).slots _

theorem spares_terminate (j : Nat) : Spares c i v (v.terminate k j).1 := by
  cases ht : v.sessions[j]? with
  | none =>
    unfold terminate onSession
    rw [ht]
    exact .refl
  | some t =>
    unfold terminate
    rw [onSession_of_some ht]
    refine (spares_setSession ht fun _ => ?_).slots _
    unfold Session.terminate
    split
    · exact ⟨id, fun _ => rfl⟩
    · exact ⟨fun _ => rfl, nofun⟩

theorem spares_push (hi : i ≠ v.sessions.size) (hd : d ≠ c) : Spares c i v (v.push d now) := by
  refine ⟨by rw [registry_push, if_neg (Ne.symm hd)], fun u hu => ?_⟩
  exact ⟨u, by rw [sessions_push, if_neg hi, hu], id, fun _ => rfl⟩

theorem spares_park (j : Nat) : Spares c i v (v.park j).2 := by
  unfold park
  split
  · exact .refl
  · rename_i t ht
    exact spares_tend ht (Session.tended_arrive t)

theorem spares_reclaim (hj : j ≠ i) (claims : List (Path × Mode)) (v : Server) (k : Cluster) :
    Spares c i v (v.reclaim k j claims).2.1 := by
  induction claims generalizing v k with
  | nil => exact .refl
  | cons x rest ih =>
    obtain ⟨p, m⟩ := x
    have ha : Spares c i v (v.onSession k j (.ok false) fun s l => s.acquire v.store l p m).2.1 :=
      spares_onSession hj _ _
    unfold reclaim
    generalize (v.onSession k j (Except.ok false) fun s l => s.acquire v.store l p m) = y at ha ⊢
    obtain ⟨_ | _ | _, w, k'⟩ := y
    · exact ha
    · exact ha
    · exact ha.trans (ih w k')

/-- If `d` can get a new session, it is another client than `c`. -/
def Others (v : Server) (c d : Client) (now : Nat) : Prop :=
  ∀ x, v.create d now = .ok x → d ≠ c

/-- A client with a live session gets no other. -/
theorem others_of_live (hs : v.session? c = some (i, s)) (hl : s.ended = false) (d : Client)
    (now : Nat) : v.Others c d now := by
  rintro x hx rfl
  simp [create, hs, hl] at hx

/-- A session that is made has a number of its own. -/
theorem spares_create (hi : i ≠ v.sessions.size) (hd : v.Others c d now)
    (h : v.create d now = .ok (j, v')) : j ≠ i ∧ Spares c i v v' := by
  have hd := hd _ h
  obtain ⟨rfl, rfl⟩ := eq_push_of_create h
  exact ⟨hi.symm, spares_push hi hd⟩

theorem spares_recover (hi : i ≠ v.sessions.size) (hd : v.Others c d now) (claimed : Dict Mode) :
    Spares c i v (v.recover k d claimed now).2.1 := by
  unfold recover
  split
  · exact .refl
  · rename_i j w hw
    obtain ⟨hj, hc⟩ := spares_create hi hd hw
    have hr : Spares c i v (w.reclaim k j claimed.toList).2.1 := hc.trans (spares_reclaim hj _ w k)
    revert hr
    rcases w.reclaim k j claimed.toList with ⟨_ | _, u, k'⟩ <;> intro hr
    · exact hr.trans (spares_terminate j)
    · exact hr

/-- Another client's name stands for another session. -/
theorem Kept.ne_of_session? (h : v.Kept) (hs : v.session? c = some (i, s))
    (ht : v.session? d = some (j, t)) (hd : d ≠ c) : j ≠ i := by
  rintro rfl
  have := (session?_eq_some_iff.1 ht).2
  rw [(session?_eq_some_iff.1 hs).2] at this
  cases this
  exact hd ((h.client_of_session? ht).symm.trans (h.client_of_session? hs))

theorem spares_keepAlive (hi : i ≠ v.sessions.size) (hd : v.Others c d now)
    (claimed : Option (Dict Mode)) : Spares c i v (v.keepAlive k d claimed now).2.1 := by
  unfold keepAlive
  split
  · exact spares_park _
  · split
    · exact .refl
    · rename_i hw
      exact (spares_create hi hd hw).2.trans (spares_park _)
  · rename_i j t claimed ht
    split
    · exact spares_recover hi hd claimed
    · rename_i he
      refine spares_setSession (session?_eq_some_iff.1 ht).2 fun _ => ⟨fun e => ?_, fun _ => rfl⟩
      exact absurd e he
  · exact spares_recover hi hd _

/-- Nobody but `c` has the session `i`, and it is none that is yet to come. -/
structure Apart (v : Server) (c : Client) (i : Nat) : Prop where
  old : i ≠ v.sessions.size
  others : ∀ d j t, d ≠ c → v.session? d = some (j, t) → j ≠ i

theorem Kept.apart (h : v.Kept) (hs : v.session? c = some (i, s)) : v.Apart c i where
  old := Nat.ne_of_lt (Array.getElem?_eq_some_iff.1 (session?_eq_some_iff.1 hs).2).1
  others _ _ _ hd ht := h.ne_of_session? hs ht hd

theorem spares_onLive {α : Type} (ha : v.Apart c i) (hd : d ≠ c)
    (f : Session → Locks Cluster → Except Error α × Session × Locks Cluster) :
    Spares c i v (v.onLive k d f).2.1 := by
  unfold onLive
  split
  · exact .refl
  · rename_i j t ht
    exact spares_onSession (ha.others d j t hd (liveSession_eq_ok_iff.1 ht).1) _ f

theorem spares_lead (ha : v.Apart c i) {q : Request}
    (hd : ∀ d, q.sender? = some d → v.Others c d now) (hq : (Act.request q).foreign c i = true) :
    Spares c i v (v.lead k now q).2.1 := by
  cases q with
  | initSession d =>
    simp only [lead]
    split
    · exact .refl
    · rename_i hw
      exact (spares_create ha.old (hd d rfl) hw).2
  | keepAlive d claimed => exact spares_keepAlive ha.old (hd d rfl) claimed
  | openLock d p | deleteLock d p | acquireLock d p m | releaseLock d p =>
    exact spares_onLive ha (by simpa [Act.foreign] using hq) _
  | join n a =>
    simp only [lead]
    split <;> exact .refl

theorem spares_serve (ha : v.Apart c i) {q : Request}
    (hd : ∀ d, q.sender? = some d → v.Others c d now) (hq : (Act.request q).foreign c i = true) :
    Spares c i v (v.serve k now q).2.1 := by
  unfold serve
  split
  · exact spares_lead ha hd hq
  · exact .refl

/-- In whose name it is done that a session may be made. -/
def Act.sender? : Act → Option Client
  | .request q => q.sender?
  | .create d | .keepAlive d _ => some d
  | _ => none

theorem spares_does (hv : v.Apart c i) {a : Act} (hd : ∀ d, a.sender? = some d → v.Others c d now)
    (ha : a.foreign c i = true) : Spares c i v (v.does k now a).1 := by
  cases a with
  | request q => exact spares_serve hv hd ha
  | create d =>
    simp only [does]
    split
    · exact .refl
    · rename_i hw
      exact (spares_create hv.old (hd d rfl) hw).2
  | terminateClient d =>
    simp only [does, terminateClient]
    split
    · exact .refl
    · exact spares_terminate _
  | keepAlive d claimed => exact spares_keepAlive hv.old (hd d rfl) claimed
  | call j op => exact spares_onSession (by simpa [Act.foreign] using ha) _ _
  | park j => exact spares_park j
  | refresh j =>
    simp only [does]
    split
    · exact .refl
    · rename_i t ht
      unfold Session.refresh?
      split
      · exact .refl
      · rename_i t' he
        split at he
        · cases he
        · cases he
          exact spares_setSession ht fun _ => ⟨id, fun _ => rfl⟩
  | terminate j => exact spares_terminate j
  | look j =>
    rcases does_look (v := v) (k := k) now j with h | h | ⟨t, t', ht, htend, h⟩ <;> rw [h]
    · exact .refl
    · exact spares_terminate j
    · exact spares_tend ht htend
  | answer j =>
    rcases does_answer (v := v) (k := k) now j with h | ⟨t, t', ht, htend, h⟩ <;> rw [h]
    · exact .refl
    · exact spares_tend ht htend
  | abandon j u =>
    simp only [does, abandon]
    split
    · exact .refl
    · rename_i t ht
      exact spares_tend ht (Session.tended_abandon t u)

/-- Whatever else is done, the client's session stays its session and has its list, unless it
has ended. -/
theorem session?_does (h : v.Kept) (hs : v.session? c = some (i, s)) (hl : s.ended = false)
    {a : Act} (ha : a.foreign c i = true) :
    ∃ s', (v.does k now a).1.session? c = some (i, s') ∧ (s'.ended = false → s'.held = s.held) := by
  have hsp : Spares c i v (v.does k now a).1 :=
    spares_does (h.apart hs) (fun d _ => others_of_live hs hl d now) ha
  obtain ⟨hr, hi⟩ := session?_eq_some_iff.1 hs
  obtain ⟨s', hs', -, hh⟩ := hsp.session s hi
  exact ⟨s', session?_eq_some_iff.2 ⟨hsp.registry.trans hr, hs'⟩, hh⟩

end Server

end LockCell
