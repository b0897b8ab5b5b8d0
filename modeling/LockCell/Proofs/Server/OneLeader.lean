import LockCell.Proofs.Server.Agreement

/-
  LockCell.Proofs.Server.OneLeader — what is done at a server while it leads.

  Requests come in any order from any clients. Beside them the owners of the server's
  sessions call on them directly, old sessions included, the watches look, and parked
  keep-alives are answered or given up (`Act`). After any row of these the sessions and the
  lock table say the same of every lock, and neither ever finds the other at fault
  (`agreement_of_acts`).
-/

namespace LockCell

namespace Server

/-- One thing done at a server. Sessions are called on by their numbers. -/
inductive Act where
  | request (q : Request)
  | create (c : Client)
  | terminateClient (c : Client)
  | keepAlive (c : Client) (claimed : Option (Dict Mode))
  | call (session : Nat) (op : LockOp)
  | park (session : Nat)
  | refresh (session : Nat)
  | terminate (session : Nat)
  /-- The watch of the session looks. -/
  | look (session : Nat)
  /-- A keep-alive parked in the session is answered. -/
  | answer (session : Nat)
  | abandon (session ticket : Nat)

/-- The server and the store after something was done at the time `now`. -/
def does (v : Server) (k : Cluster) (now : Nat) : Act → Server × Cluster
  | .request q => (v.serve k now q).2
  | .create c =>
    match v.create c now with
    | .error _ => (v, k)
    | .ok (_, v) => (v, k)
  | .terminateClient c => (v.terminateClient k c).2
  | .keepAlive c claimed => (v.keepAlive k c claimed now).2
  | .call i op => (v.onSession k i () fun s l => ((), (s.call v.store l op).2)).2
  | .park i => ((v.park i).2, k)
  | .refresh i =>
    match v.sessions[i]? with
    | none => (v, k)
    | some s =>
      match s.refresh? now with
      | .error _ => (v, k)
      | .ok s => (v.setSession i s, k)
  | .terminate i => v.terminate k i
  | .look i => (v.look? k i now).getD (v, k)
  | .answer i =>
    match v.answer? k i with
    | none => (v, k)
    | some (_, _, v) => (v, k)
  | .abandon i t => (v.abandon i t, k)

/-- Things done one after another, each at a time of its own. -/
def run (v : Server) (k : Cluster) (acts : List (Nat × Act)) : Server × Cluster :=
  acts.foldl (fun x a => x.1.does x.2 a.1 a.2) (v, k)

variable {v : Server} {k : Cluster}

/-- It may refresh or end a session of that client before its time. -/
def Act.Hits (v : Server) : Act → Client → Prop
  | .request q, c => q.Claims c
  | .terminateClient d, c | .keepAlive d (some _), c => d = c
  | .refresh i, c | .terminate i, c => ∃ s, v.sessions[i]? = some s ∧ s.client = c
  | _, _ => False

theorem moves_does_hits (hv : v.Kept) (now : Nat) (a : Act) :
    Moves (a.Hits v) now (v, k) (v.does k now a) := by
  cases a with
  | request q => exact moves_serve hv q
  | create c =>
    simp only [does]
    split
    · exact .refl
    · rename_i hc
      exact moves_create hc
  | terminateClient c => exact moves_terminateClient hv rfl
  | keepAlive c claimed =>
    refine moves_keepAlive hv fun hs => ?_
    obtain ⟨d, rfl⟩ := Option.isSome_iff_exists.1 hs
    rfl
  | call i op => exact moves_onSession i () op fun _ _ => rfl
  | park i => exact moves_park i
  | refresh i =>
    simp only [does]
    split
    · exact .refl
    · rename_i s hi
      unfold Session.refresh?
      split
      · exact .refl
      · rename_i s' he
        split at he
        · cases he
        · rename_i hs
          cases he
          exact .single (.refresh ⟨s, hi, rfl⟩ hi (by simpa using hs))
  | terminate i => exact moves_terminate fun s hs => ⟨s, hs, rfl⟩
  | look i =>
    simp only [does]
    cases h : v.look? k i now with
    | none => exact .refl
    | some x => exact moves_look? h
  | answer i =>
    simp only [does]
    split
    · exact .refl
    · rename_i h
      exact moves_answer? h
  | abandon i t => exact moves_abandon i t

theorem moves_does (hv : v.Kept) (now : Nat) (a : Act) :
    Moves (fun _ => True) now (v, k) (v.does k now a) :=
  (moves_does_hits hv now a).mono fun _ _ => trivial

/-- A look changes nothing, tends the session or ends it. -/
theorem does_look (now i : Nat) :
    v.does k now (.look i) = (v, k) ∨ v.does k now (.look i) = v.terminate k i ∨
      ∃ s s', v.sessions[i]? = some s ∧ s.Tended s' ∧
        v.does k now (.look i) = (v.setSession i s', k) := by
  simp only [does, look?]
  cases hi : v.sessions[i]? with
  | none => exact Or.inl rfl
  | some s =>
    dsimp only
    cases hl : s.look now with
    | asleep => exact Or.inl rfl
    | awake s' => exact Or.inr (Or.inr ⟨s, s', rfl, Session.tended_look hl, rfl⟩)
    | _ => exact Or.inr (Or.inl rfl)

/-- An answer to a parked keep-alive tends the session. -/
theorem does_answer (now i : Nat) :
    v.does k now (.answer i) = (v, k) ∨ ∃ s s', v.sessions[i]? = some s ∧ s.Tended s' ∧
      v.does k now (.answer i) = (v.setSession i s', k) := by
  simp only [does]
  cases h : v.answer? k i with
  | none => exact Or.inl rfl
  | some x =>
    obtain ⟨s, hi, h⟩ := Option.bind_eq_some_iff.1 h
    obtain ⟨⟨t, a, s'⟩, ha, h⟩ := Option.bind_eq_some_iff.1 h
    cases h
    exact Or.inr ⟨s, s', hi, Session.tended_answer? ha, rfl⟩

theorem leads_fresh (listen : Addr) (lease : LeaseConfig) {n : Node} (hl : k.leads n = true) :
    Leads { node := n, listen, lease } k where
  toAgrees := agrees_fresh n listen lease k
  leads := hl
  covered c p m h := absurd h (Slots.not_holds_empty c p m)

theorem Leads.does (h : v.Leads k) (now : Nat) (a : Act) :
    (v.does k now a).1.Leads (v.does k now a).2 :=
  (moves_does h.toKept now a).leads h

theorem Leads.run (h : v.Leads k) (acts : List (Nat × Act)) :
    (v.run k acts).1.Leads (v.run k acts).2 := by
  induction acts generalizing v k with
  | nil => exact h
  | cons a rest ih => exact ih (h.does a.1 a.2)

/-- The states that a recovery passes through after the creation are reached by calls of the
new session, too. -/
theorem exists_run_eq_reclaim (i : Nat) (claims : List (Path × Mode)) (v : Server) (k : Cluster) :
    ∃ acts, v.run k acts = (v.reclaim k i claims).2 := by
  induction claims generalizing v k with
  | nil => exact ⟨[], rfl⟩
  | cons x rest ih =>
    obtain ⟨p, m⟩ := x
    have hd : v.does k 0 (.call i (.acquireLock p m)) =
        (v.onSession k i (.ok false) fun s l => s.acquire v.store l p m).2 := by
      simp only [does, onSession]
      cases v.sessions[i]? <;> rfl
    unfold reclaim
    generalize (v.onSession k i (Except.ok false) fun s l => s.acquire v.store l p m) = y at hd ⊢
    obtain ⟨_ | _ | _, v', k'⟩ := y
    · exact ⟨[(0, .call i (.acquireLock p m))], hd⟩
    · exact ⟨[(0, .call i (.acquireLock p m))], hd⟩
    · obtain ⟨acts, ha⟩ := ih v' k'
      refine ⟨(0, .call i (.acquireLock p m)) :: acts, ?_⟩
      rw [← ha, run, List.foldl_cons, hd]
      rfl

/-! ## The agreement -/

/-- The sessions, the lock table and the store of a server say the same, so that nothing a
session asks next can find the table at odds with it. -/
structure Agreement (v : Server) (k : Cluster) : Prop where
  /-- The owners of a lock are the clients whose registered session is live and lists it. -/
  owner_iff : ∀ c p, (∃ r, v.slots.record? p = some r ∧ c ∈ r.owners) ↔
    ∃ i s, v.session? c = some (i, s) ∧ s.live = true ∧ p ∈ s.held
  /-- The list has the lock in the mode of its record. -/
  mode_eq : ∀ c p r i s, v.slots.record? p = some r → c ∈ r.owners →
    v.session? c = some (i, s) → s.held[p]? = some r.mode
  /-- What is owned exists. -/
  stored : ∀ c p r, v.slots.record? p = some r → c ∈ r.owners → p ∈ k.contents
  call_ne_invariant : ∀ (i : Nat) (s : Session), v.sessions[i]? = some s → ∀ op q d,
    (s.call v.store (v.locks k) op).1 ≠ .error (.lock (.invariant q d))
  serve_ne_invariant : ∀ now q p d,
    (v.serve k now q).1 ≠ .done (.error (.lock (.invariant p d)))
  /-- What the list lets through the table does not find to be owned by the client. -/
  acquire_ne_alreadyOwned : ∀ (i : Nat) (s : Session), v.sessions[i]? = some s →
    s.live = true → ∀ p, p ∉ s.held → ∀ m d q,
    ((v.locks k).acquire v.store s.client p m).1 ≠ .error (.lock (.alreadyOwned d q))

theorem Agrees.call_ne_invariant {i : Nat} {s : Session} (h : v.Agrees k)
    (hi : v.sessions[i]? = some s) (op : LockOp) (q : Path) (d : String) :
    (s.call v.store (v.locks k) op).1 ≠ .error (.lock (.invariant q d)) := by
  refine Session.call_ne_invariant v.node h.sound (fun p hp => ?_) op q d
  obtain ⟨m, hm⟩ := Dict.getElem?_of_mem hp
  exact ⟨m, h.backed i s hi p m hm⟩

theorem liveSession_eq_ok_iff {c : Client} {i : Nat} {s : Session} :
    v.liveSession c = .ok (i, s) ↔ v.session? c = some (i, s) ∧ s.ended = false := by
  unfold liveSession
  constructor
  · intro h
    split at h
    · cases h
    · rename_i hs
      split at h
      · cases h
      · rename_i he
        cases h
        exact ⟨hs, by simpa using he⟩
  · intro hx
    obtain ⟨hs, he⟩ := hx
    simp [hs, he]

/-! ## Why a request fails -/

/-- What a server answers when the client's session is not as the request needs it; the locks are
not looked at. -/
inductive Unfit : Error → Prop
  | taken (c : Client) : Unfit (.sessionExists c)
  | missing (c : Client) : Unfit (.sessionNotFound c)
  | expired (c : Client) : Unfit (.sessionExpired c)
  | unknown : Unfit (.other "no such session")

theorem unfit_of_liveSession {c : Client} {e : Error} (h : v.liveSession c = .error e) :
    Unfit e := by
  unfold liveSession at h
  split at h
  · cases h
    exact .missing c
  · split at h
    · cases h
      exact .expired c
    · cases h

theorem unfit_of_create {c : Client} {now : Nat} {e : Error} (h : v.create c now = .error e) :
    Unfit e := by
  unfold create at h
  split at h
  · split at h
    · cases h
    · cases h
      exact .taken c
  · cases h

theorem unfit_of_park {i : Nat} {e : Error} (h : (v.park i).1 = .done (.error e)) : Unfit e := by
  unfold park at h
  split at h
  · cases h
    exact .unknown
  · cases h

theorem unfit_of_recover {c : Client} {claimed : Dict Mode} {now : Nat} {e : Error}
    (h : (v.recover k c claimed now).1 = .error e) : Unfit e := by
  unfold recover at h
  split at h
  · rename_i hc
    cases h
    exact unfit_of_create hc
  · split at h <;> cases h

/-- A lock that cannot be taken back ends the new session; the keep-alive is answered. -/
theorem unfit_of_keepAlive {c : Client} {claimed : Option (Dict Mode)} {now : Nat} {e : Error}
    (h : (v.keepAlive k c claimed now).1 = .done (.error e)) : Unfit e := by
  unfold keepAlive at h
  split at h
  · exact unfit_of_park h
  · split at h
    · rename_i hc
      cases h
      exact unfit_of_create hc
    · exact unfit_of_park h
  · split at h
    · exact unfit_of_recover (Handled.done.inj h)
    · cases h
  · exact unfit_of_recover (Handled.done.inj h)

theorem liveSession_ne_lock (v : Server) (c : Client) (e : LockError) :
    v.liveSession c ≠ .error (.lock e) := fun h => nomatch unfit_of_liveSession h

theorem create_ne_lock (v : Server) (c : Client) (now : Nat) (e : LockError) :
    v.create c now ≠ .error (.lock e) := fun h => nomatch unfit_of_create h

theorem keepAlive_ne_lock (v : Server) (k : Cluster) (c : Client) (claimed : Option (Dict Mode))
    (now : Nat) (e : LockError) : (v.keepAlive k c claimed now).1 ≠ .done (.error (.lock e)) :=
  fun h => nomatch unfit_of_keepAlive h

/-- A lock call of a client fails for want of a session, or in its live session. -/
theorem onLive_eq_error {α : Type} {c : Client} {e : Error}
    {f : Session → Locks Cluster → Except Error α × Session × Locks Cluster}
    (h : (v.onLive k c f).1 = .error e) :
    Unfit e ∨ ∃ i s, v.liveSession c = .ok (i, s) ∧ (f s (v.locks k)).1 = .error e := by
  unfold onLive at h
  split at h
  · rename_i hl
    cases h
    exact Or.inl (unfit_of_liveSession hl)
  · rename_i i s hl
    have hi := (session?_eq_some_iff.1 (liveSession_eq_ok_iff.1 hl).1).2
    rw [onSession_of_some hi] at h
    exact Or.inr ⟨i, s, hl, h⟩

/-- A request at the leader fails for want of a session, or it is a lock call that fails in the
client's live session. -/
theorem lead_eq_error (hl : k.leads v.node = true) {now : Nat} {q : Request} {e : Error}
    (h : (v.lead k now q).1 = .done (.error e)) :
    Unfit e ∨ ∃ c op i s, q = op.request c ∧ v.liveSession c = .ok (i, s) ∧
      (s.call v.store (v.locks k) op).1 = .error e := by
  cases q with
  | initSession c =>
    simp only [lead] at h
    split at h
    · rename_i hc
      cases h
      exact Or.inl (unfit_of_create hc)
    · cases h
  | keepAlive c claimed =>
    simp only [lead] at h
    cases hr : (v.keepAlive k c claimed now).1 with
    | done r =>
      rw [hr] at h
      simp only [Handled.map, Handled.done.injEq, map_eq_error_iff] at h
      rw [h] at hr
      exact Or.inl (unfit_of_keepAlive hr)
    | parked i t =>
      rw [hr] at h
      cases h
  | openLock c p =>
    simp only [lead, Handled.done.injEq, map_eq_error_iff] at h
    refine (onLive_eq_error h).imp_right ?_
    rintro ⟨i, s, hs, he⟩
    exact ⟨c, .openLock p, i, s, rfl, hs, map_eq_error_iff.2 he⟩
  | deleteLock c p =>
    simp only [lead, Handled.done.injEq, map_eq_error_iff] at h
    refine (onLive_eq_error h).imp_right ?_
    rintro ⟨i, s, hs, he⟩
    exact ⟨c, .deleteLock p, i, s, rfl, hs, map_eq_error_iff.2 he⟩
  | acquireLock c p m =>
    simp only [lead, Handled.done.injEq, map_eq_error_iff] at h
    refine (onLive_eq_error h).imp_right ?_
    rintro ⟨i, s, hs, he⟩
    exact ⟨c, .acquireLock p m, i, s, rfl, hs, he⟩
  | releaseLock c p =>
    simp only [lead, Handled.done.injEq, map_eq_error_iff] at h
    refine (onLive_eq_error h).imp_right ?_
    rintro ⟨i, s, hs, he⟩
    exact ⟨c, .releaseLock p, i, s, rfl, hs, map_eq_error_iff.2 he⟩
  | join n a =>
    simp only [lead, Cluster.join, Cluster.whenLeading, hl, if_true] at h
    cases h

/-- A request that contradicts the table is a lock call that does so. -/
theorem exists_call_of_serve {now : Nat} {q : Request} {p : Path} {d : String}
    (he : (v.serve k now q).1 = .done (.error (.lock (.invariant p d)))) :
    ∃ c op i s, q = op.request c ∧ v.liveSession c = .ok (i, s) ∧
      (s.call v.store (v.locks k) op).1 = .error (.lock (.invariant p d)) := by
  unfold serve at he
  split at he
  · rename_i hl
    rcases lead_eq_error hl he with hu | hc
    · cases hu
    · exact hc
  · cases he

theorem serve_ne_invariant (h : v.Agrees k) (now : Nat) (q : Request) (p : Path) (d : String) :
    (v.serve k now q).1 ≠ .done (.error (.lock (.invariant p d))) := by
  intro he
  obtain ⟨c, op, i, s, -, hl, he⟩ := exists_call_of_serve he
  have hi := (session?_eq_some_iff.1 (liveSession_eq_ok_iff.1 hl).1).2
  exact h.call_ne_invariant hi op p d he

theorem Leads.agreement (h : v.Leads k) : Agreement v k where
  owner_iff c p := by
    constructor
    · intro hx
      obtain ⟨r, hr, hc⟩ := hx
      obtain ⟨i, s, hs, hp⟩ := h.covered c p r.mode ⟨r, hr, hc, rfl⟩
      have hp := Dict.mem_of_getElem? hp
      have hl := h.live_of_mem (session?_eq_some_iff.1 hs).2 hp
      exact ⟨i, s, hs, by simp [Session.live, hl], hp⟩
    · intro he
      obtain ⟨i, s, hs, -, hp⟩ := he
      obtain ⟨m, hm⟩ := Dict.getElem?_of_mem hp
      obtain ⟨r, hr, hc, -⟩ := h.backed i s (session?_eq_some_iff.1 hs).2 p m hm
      exact ⟨r, hr, h.client_of_session? hs ▸ hc⟩
  mode_eq c p r i s hr hc hs := by
    obtain ⟨j, t, ht, hp⟩ := h.covered c p r.mode ⟨r, hr, hc, rfl⟩
    rw [hs] at ht
    cases ht
    exact hp
  stored c p r hr hc := by
    obtain ⟨i, s, hs, hp⟩ := h.covered c p r.mode ⟨r, hr, hc, rfl⟩
    exact h.stored h.leads i s (session?_eq_some_iff.1 hs).2 p (Dict.mem_of_getElem? hp)
  call_ne_invariant i s hi op q d := h.call_ne_invariant hi op q d
  serve_ne_invariant now q p d := serve_ne_invariant h.toAgrees now q p d
  acquire_ne_alreadyOwned i s hi hl p hp m d q := by
    refine Locks.acquire_ne_alreadyOwned v.node h.sound (fun m' hm => ?_) m d q
    -- a hold of the session's client would be on the list of its registered session
    obtain ⟨j, t, ht, hq⟩ := h.covered s.client p m' hm
    obtain ⟨hr, ht⟩ := session?_eq_some_iff.1 ht
    rw [h.newest i s hi (by simpa [Session.live] using hl)] at hr
    cases hr
    rw [hi] at ht
    cases ht
    exact hp (Dict.mem_of_getElem? hq)

/-- Whatever is done at a server while it leads, its sessions and its lock table agree. -/
theorem agreement_of_acts (listen : Addr) (lease : LeaseConfig) {n : Node}
    (hl : k.leads n = true) (acts : List (Nat × Act)) :
    Agreement (run { node := n, listen, lease } k acts).1 (run { node := n, listen, lease } k acts).2 :=
  ((leads_fresh listen lease hl).run acts).agreement

/-- A client loses its lease and takes its lock back, and its old session is called again. -/
def comeback : List (Nat × Act) :=
  [(0, .request (.initSession "x")), (1, .request (.openLock "x" "/L")),
    (2, .request (.acquireLock "x" "/L" .exclusive)), (3, .terminate 0),
    (4, .request (.keepAlive "x" (some (.ofList [("/L", Mode.exclusive)])))),
    (5, .call 0 (.releaseLock "/L")), (6, .call 1 (.deleteLock "/L"))]

theorem agreement_of_comeback :
    (Cluster.empty.elect "a").leads "a" = true ∧
      Agreement (run { node := "a", listen := "a:1", lease := .fast } (Cluster.empty.elect "a") comeback).1
        (run { node := "a", listen := "a:1", lease := .fast } (Cluster.empty.elect "a") comeback).2 :=
  ⟨by decide, agreement_of_acts "a:1" .fast (by decide) comeback⟩

end Server

end LockCell
