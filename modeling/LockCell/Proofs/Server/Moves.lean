import LockCell.Proofs.Session.Calls
import LockCell.Server.Serve
import Mathlib.Logic.Relation

/-
  LockCell.Proofs.Server.Moves — all that a server does, in small moves.

  A request, a look of the watch, an answer to a parked keep-alive: each is a row of moves
  of a few kinds (`Move`). A session is begun for a client that has no live one; a session
  is tended, which leaves its locks alone and its lease no shorter; its lease starts over;
  it makes a lock call; it ends. `W` says whose sessions may be refreshed, or ended before
  their deadline; of all requests only a keep-alive with claims does that (`Request.Claims`).

  An invariant of the moves is an invariant of all that (`moves_serve`, `moves_look?`,
  `moves_answer?`, `moves_abandon`). The first of them is that the registry and the sessions
  fit together (`Kept`).
-/

namespace LockCell

/-- A session whose locks and start are as they were, and whose lease is no shorter. -/
structure Session.Tended (s s' : Session) : Prop where
  client : s'.client = s.client
  config : s'.config = s.config
  held : s'.held = s.held
  ended : s'.ended = s.ended
  start : s'.start = s.start
  lease : s.lease ≤ s'.lease
  lease_of_ended : s.ended = true → s'.lease = s.lease

namespace Session

theorem tended_arrive (s : Session) : s.Tended s.arrive :=
  ⟨rfl, rfl, rfl, rfl, rfl, Nat.le_refl _, fun _ => rfl⟩

theorem tended_abandon (s : Session) (t : Nat) : s.Tended (s.abandon t) :=
  ⟨rfl, rfl, rfl, rfl, rfl, Nat.le_refl _, fun _ => rfl⟩

theorem tended_aim (s : Session) (now : Nat) : s.Tended (s.aim now) :=
  ⟨rfl, rfl, rfl, rfl, rfl, Nat.le_refl _, fun _ => rfl⟩

theorem tended_warn_aim (s : Session) (now : Nat) : s.Tended (s.warn.aim now) :=
  ⟨rfl, rfl, rfl, rfl, rfl, Nat.le_refl _, fun _ => rfl⟩

theorem tended_extend {s : Session} (h : s.ended = false) (t : Nat) :
    s.Tended (s.extend.abandon t) :=
  ⟨rfl, rfl, rfl, rfl, rfl, Nat.le_add_right _ _, fun he => by rw [h] at he; cases he⟩

theorem tended_settled? {s s' : Session} {t : Nat} {a : KeepAlive}
    (h : s.settled? t = some (a, s')) : s.Tended (s'.abandon t) := by
  unfold settled? at h
  split at h
  · cases h
    exact tended_abandon s t
  · rename_i he
    split at h
    · cases h
      exact tended_abandon s t
    · split at h
      · cases h
        exact tended_extend (by simpa using he) t
      · cases h

theorem tended_answer? {s s' : Session} {t : Nat} {a : KeepAlive}
    (h : s.answer? = some (t, a, s')) : s.Tended s' := by
  obtain ⟨u, -, hu⟩ := List.exists_of_findSome?_eq_some h
  obtain ⟨⟨b, w⟩, hw, e⟩ := Option.map_eq_some_iff.1 hu
  cases e
  exact tended_settled? hw

/-- A watch that wakes up tends its session; it ends it at the deadline at the earliest. -/
theorem tended_look {s s' : Session} {now : Nat} (h : s.look now = .awake s') : s.Tended s' := by
  unfold look at h
  repeat' split at h
  all_goals cases h
  · exact tended_aim s now
  · exact tended_warn_aim s now
  · exact tended_aim s now

theorem deadline_le_of_look {s : Session} {now : Nat} (h : s.look now = .over) :
    s.deadline ≤ now := by
  unfold look at h
  repeat' split at h
  all_goals cases h
  assumption

end Session

namespace Server

/-- One move at the time `now`, on behalf of those clients that satisfy `W`. -/
inductive Move (W : Client → Prop) (now : Nat) : Server × Cluster → Server × Cluster → Prop
  | begin {v : Server} {k : Cluster} (c : Client) :
      (∀ i s, v.session? c = some (i, s) → s.ended = true) → Move W now (v, k) (v.push c now, k)
  | tend {v : Server} {k : Cluster} {i : Nat} {s s' : Session} : v.sessions[i]? = some s →
      s.Tended s' → Move W now (v, k) (v.setSession i s', k)
  | refresh {v : Server} {k : Cluster} {i : Nat} {s : Session} : W s.client →
      v.sessions[i]? = some s → s.ended = false →
      Move W now (v, k) (v.setSession i (s.refresh now), k)
  | call {v : Server} {k : Cluster} {i : Nat} {s : Session} (op : LockOp) :
      v.sessions[i]? = some s → Move W now (v, k) (v.onSession k i () fun s l =>
        ((), (s.call v.store l op).2)).2
  | expire {v : Server} {k : Cluster} {i : Nat} {s : Session} : v.sessions[i]? = some s →
      s.deadline ≤ now → Move W now (v, k) (v.terminate k i)
  | terminate {v : Server} {k : Cluster} {i : Nat} {s : Session} : W s.client →
      v.sessions[i]? = some s → Move W now (v, k) (v.terminate k i)
  /-- Members come and go; who leads and what is stored stays. -/
  | members {v : Server} {k k' : Cluster} : k'.leader = k.leader → k'.contents = k.contents →
      Move W now (v, k) (v, k')

/-- Moves at one time. -/
abbrev Moves (W : Client → Prop) (now : Nat) : Server × Cluster → Server × Cluster → Prop :=
  Relation.ReflTransGen (Move W now)

variable {W : Client → Prop} {now : Nat} {v : Server} {k : Cluster}

theorem Move.mono {W' : Client → Prop} (hw : ∀ c, W c → W' c) {x y : Server × Cluster}
    (h : Move W now x y) : Move W' now x y := by
  cases h with
  | begin c hs => exact .begin c hs
  | tend hi ht => exact .tend hi ht
  | refresh hc hi hs => exact .refresh (hw _ hc) hi hs
  | call op hi => exact .call op hi
  | expire hi hd => exact .expire hi hd
  | terminate hc hi => exact .terminate (hw _ hc) hi
  | members hl hc => exact .members hl hc

theorem Moves.mono {W' : Client → Prop} (hw : ∀ c, W c → W' c) {x y : Server × Cluster}
    (h : Moves W now x y) : Moves W' now x y :=
  Relation.ReflTransGen.mono (fun _ _ => Move.mono hw) _ _ h

/-! ## Sessions by number and by client -/

theorem session?_eq_some_iff {c : Client} {i : Nat} {s : Session} :
    v.session? c = some (i, s) ↔ v.registry[c]? = some i ∧ v.sessions[i]? = some s := by
  unfold session?
  constructor
  · intro h
    obtain ⟨j, hj, h⟩ := Option.bind_eq_some_iff.1 h
    obtain ⟨t, ht, h⟩ := Option.bind_eq_some_iff.1 h
    cases h
    exact ⟨hj, ht⟩
  · intro hx
    obtain ⟨hi, hs⟩ := hx
    simp [hi, hs]

theorem sessions_setSession {i : Nat} {s : Session} (h : v.sessions[i]? = some s) (s' : Session)
    (j : Nat) : (v.setSession i s').sessions[j]? = if j = i then some s' else v.sessions[j]? := by
  have hlt : i < v.sessions.size := (Array.getElem?_eq_some_iff.1 h).1
  simp only [setSession, Array.getElem?_setIfInBounds, hlt, eq_comm (a := i)]
  simp

theorem sessions_push (v : Server) (c : Client) (now j : Nat) :
    (v.push c now).sessions[j]? =
      if j = v.sessions.size then some (.begin c v.lease now) else v.sessions[j]? := by
  simp only [push, Array.getElem?_push]

theorem registry_push (v : Server) (c d : Client) (now : Nat) :
    (v.push c now).registry[d]? = if d = c then some v.sessions.size else v.registry[d]? := by
  simp only [push, Std.ExtTreeMap.getElem?_insert, Std.LawfulEqCmp.compare_eq_iff_eq,
    eq_comm (a := d)]

/-- The registry and the sessions fit together: a client's name stands for a session of that
client, which is its live one if it has a live one, and an ended session holds no locks. -/
structure Kept (v : Server) : Prop where
  registered : ∀ (c : Client) (i : Nat), v.registry[c]? = some i →
    ∃ s, v.sessions[i]? = some s ∧ s.client = c
  newest : ∀ (i : Nat) (s : Session), v.sessions[i]? = some s → s.ended = false →
    v.registry[s.client]? = some i
  emptied : ∀ (i : Nat) (s : Session), v.sessions[i]? = some s → s.ended = true → s.held = ∅
  configured : ∀ (i : Nat) (s : Session), v.sessions[i]? = some s → s.config = v.lease

theorem Kept.client_of_session? (h : v.Kept) {c : Client} {i : Nat} {s : Session}
    (hs : v.session? c = some (i, s)) : s.client = c := by
  obtain ⟨hi, hs⟩ := session?_eq_some_iff.1 hs
  obtain ⟨t, ht, hc⟩ := h.registered c i hi
  rw [hs] at ht
  cases ht
  exact hc

theorem onSession_of_some {α : Type} {i : Nat} {s : Session} (h : v.sessions[i]? = some s)
    (a : α) (f : Session → Locks Cluster → α × Session × Locks Cluster) :
    v.onSession k i a f =
      ((f s (v.locks k)).1,
        { v.setSession i (f s (v.locks k)).2.1 with slots := (f s (v.locks k)).2.2.slots },
        (f s (v.locks k)).2.2.store) := by
  unfold onSession
  rw [h]

/-- A lock call of a client with a live session goes to that session. -/
theorem onLive_of_live {α : Type} {c : Client} {i : Nat} {s : Session}
    (hs : v.session? c = some (i, s)) (he : s.ended = false)
    (f : Session → Locks Cluster → Except Error α × Session × Locks Cluster) :
    v.onLive k c f = v.onSession k i (.error (.sessionNotFound c)) f := by
  have hl : v.liveSession c = .ok (i, s) := by simp [liveSession, hs, he]
  unfold onLive
  rw [hl]

/-! ## The registry -/

theorem Kept.eq_of_live {i j : Nat} {s t : Session} (h : v.Kept) (hi : v.sessions[i]? = some s)
    (hj : v.sessions[j]? = some t) (hs : s.ended = false) (ht : t.ended = false)
    (hc : s.client = t.client) : i = j := by
  have e := h.newest i s hi hs
  rw [hc, h.newest j t hj ht] at e
  exact (Option.some.inj e).symm

theorem Kept.live_of_mem {i : Nat} {s : Session} (h : v.Kept) (hi : v.sessions[i]? = some s)
    {p : Path} (hp : p ∈ s.held) : s.ended = false := by
  cases he : s.ended with
  | false => rfl
  | true =>
    rw [h.emptied i s hi he] at hp
    simp at hp

theorem kept_fresh (n : Node) (listen : Addr) (lease : LeaseConfig) :
    Kept { node := n, listen, lease } where
  registered c i h := by simp at h
  newest i s h := by simp at h
  emptied i s h := by simp at h
  configured i s h := by simp at h

theorem Kept.slots (h : v.Kept) (t : Slots) : Kept { v with slots := t } :=
  ⟨h.registered, h.newest, h.emptied, h.configured⟩

theorem Kept.set {i : Nat} {s : Session} (h : v.Kept) (hi : v.sessions[i]? = some s)
    (s' : Session) (hc : s'.client = s.client)
    (hg : s'.config = s.config) (hl : s'.ended = false → s.ended = false)
    (he : s'.ended = true → s'.held = ∅) (t : Slots) :
    Kept { v.setSession i s' with slots := t } := by
  have hget : ∀ j, (v.setSession i s').sessions[j]? = if j = i then some s' else v.sessions[j]? :=
    sessions_setSession hi s'
  refine ⟨fun c j hj => ?_, fun j u hj hu => ?_, fun j u hj hu => ?_, fun j u hj => ?_⟩
  · obtain ⟨u, hu, hcu⟩ := h.registered c j hj
    by_cases e : j = i
    · subst e
      rw [hi] at hu
      cases hu
      exact ⟨s', by simp only [hget, if_true], hc.trans hcu⟩
    · exact ⟨u, by simp only [hget, if_neg e, hu], hcu⟩
  · simp only [hget] at hj
    split at hj
    · rename_i e
      cases hj
      rw [hc, e]
      exact h.newest i s hi (hl hu)
    · exact h.newest j u hj hu
  · simp only [hget] at hj
    split at hj
    · cases hj
      exact he hu
    · exact h.emptied j u hj hu
  · simp only [hget] at hj
    split at hj
    · cases hj
      exact hg.trans (h.configured i s hi)
    · exact h.configured j u hj

theorem Kept.push (h : v.Kept) {c : Client}
    (hc : ∀ i s, v.session? c = some (i, s) → s.ended = true) (now : Nat) :
    (v.push c now).Kept := by
  refine ⟨fun d j hj => ?_, fun j u hj hu => ?_, fun j u hj hu => ?_, fun j u hj => ?_⟩
  · rw [registry_push] at hj
    split at hj
    · rename_i e
      cases hj
      exact ⟨_, by rw [sessions_push, if_pos rfl], e.symm⟩
    · obtain ⟨u, hu, hcu⟩ := h.registered d j hj
      have hlt := (Array.getElem?_eq_some_iff.1 hu).1
      exact ⟨u, by rw [sessions_push, if_neg (by omega), hu], hcu⟩
  · rw [sessions_push] at hj
    rw [registry_push]
    split at hj
    · rename_i e
      cases hj
      rw [if_pos (show (Session.begin c v.lease now).client = c from rfl), e]
    · -- another live session of `c` would have been the registered one
      have hr := h.newest j u hj hu
      rw [if_neg, hr]
      intro e
      subst e
      rw [hc j u (session?_eq_some_iff.2 ⟨hr, hj⟩)] at hu
      cases hu
  · rw [sessions_push] at hj
    split at hj
    · cases hj
      cases hu
    · exact h.emptied j u hj hu
  · rw [sessions_push] at hj
    split at hj
    · cases hj
      rfl
    · exact h.configured j u hj

/-! ## What a server does is moves -/

theorem moves_onSession {α : Type} (i : Nat) (a : α) (op : LockOp)
    {f : Session → Locks Cluster → α × Session × Locks Cluster}
    (hf : ∀ s l, (f s l).2 = (s.call v.store l op).2) :
    Moves W now (v, k) (v.onSession k i a f).2 := by
  cases hi : v.sessions[i]? with
  | none =>
    unfold onSession
    rw [hi]
  | some s =>
    have hm : Move W now (v, k) _ := .call op hi
    rw [onSession_of_some hi] at hm ⊢
    rw [hf]
    exact .single hm

theorem moves_park (i : Nat) : Moves W now (v, k) ((v.park i).2, k) := by
  unfold park
  split
  · exact .refl
  · rename_i s hi
    exact .single (.tend hi (Session.tended_arrive s))

theorem eq_push_of_create {c : Client} {i : Nat} {v' : Server}
    (h : v.create c now = .ok (i, v')) : i = v.sessions.size ∧ v' = v.push c now := by
  unfold create at h
  repeat' split at h
  all_goals cases h
  all_goals exact ⟨rfl, rfl⟩

theorem moves_create {c : Client} {i : Nat} {v' : Server}
    (h : v.create c now = .ok (i, v')) : Moves W now (v, k) (v', k) := by
  unfold create at h
  split at h
  · rename_i j s hs
    split at h
    · rename_i he
      cases h
      refine .single (.begin c fun j' s' hs' => ?_)
      rw [hs] at hs'
      cases hs'
      exact he
    · cases h
  · rename_i hs
    cases h
    refine .single (.begin c fun j s hs' => ?_)
    rw [hs] at hs'
    cases hs'

theorem moves_terminate {i : Nat} (hw : ∀ s, v.sessions[i]? = some s → W s.client) :
    Moves W now (v, k) (v.terminate k i) := by
  cases hi : v.sessions[i]? with
  | none =>
    unfold terminate onSession
    rw [hi]
  | some s => exact .single (.terminate (hw s hi) hi)

theorem moves_terminateClient (hv : v.Kept) {c : Client} (hc : W c) :
    Moves W now (v, k) (v.terminateClient k c).2 := by
  unfold terminateClient
  split
  · exact .refl
  · rename_i i s hs
    refine moves_terminate fun t ht => ?_
    rw [(session?_eq_some_iff.1 hs).2] at ht
    cases ht
    exact (hv.client_of_session? hs).symm ▸ hc

theorem sessions_onSession {i : Nat} (op : LockOp) {α : Type} (a : α)
    {f : Session → Locks Cluster → α × Session × Locks Cluster}
    (hf : ∀ s l, (f s l).2 = (s.call v.store l op).2) {c : Client}
    (hc : ∀ s, v.sessions[i]? = some s → s.client = c) (s : Session)
    (hs : (v.onSession k i a f).2.1.sessions[i]? = some s) : s.client = c := by
  cases hi : v.sessions[i]? with
  | none =>
    unfold onSession at hs
    rw [hi] at hs
    exact hc s hs
  | some t =>
    rw [onSession_of_some hi, hf] at hs
    simp only [sessions_setSession hi, if_true] at hs
    cases hs
    rw [Session.call_eq_held]
    exact hc t hi

/-- Locks are taken back one by one, in a session that stays its client's. -/
theorem moves_reclaim (i : Nat) {c : Client} (claims : List (Path × Mode)) :
    ∀ {v : Server} {k : Cluster}, (∀ s, v.sessions[i]? = some s → s.client = c) →
      Moves W now (v, k) (v.reclaim k i claims).2 ∧
        ∀ s, (v.reclaim k i claims).2.1.sessions[i]? = some s → s.client = c := by
  induction claims with
  | nil =>
    intro v k hc
    exact ⟨.refl, hc⟩
  | cons x rest ih =>
    intro v k hc
    obtain ⟨p, m⟩ := x
    have hm : Moves W now (v, k) (v.onSession k i (.ok false) fun s l => s.acquire v.store l p m).2 :=
      moves_onSession i _ (.acquireLock p m) fun _ _ => rfl
    have hc' := sessions_onSession (v := v) (k := k) (.acquireLock p m) (.ok false)
      (f := fun s l => s.acquire v.store l p m) (fun _ _ => rfl) hc
    unfold reclaim
    generalize (v.onSession k i (Except.ok false) fun s l => s.acquire v.store l p m) = x at hm hc' ⊢
    obtain ⟨_ | _ | _, v', k'⟩ := x
    · exact ⟨hm, hc'⟩
    · exact ⟨hm, hc'⟩
    · exact ⟨hm.trans (ih hc').1, (ih hc').2⟩

theorem moves_recover {c : Client} (hc : W c) (claimed : Dict Mode) :
    Moves W now (v, k) (v.recover k c claimed now).2 := by
  unfold recover
  split
  · exact .refl
  · rename_i i v' hv
    have hpush := moves_create (W := W) (k := k) hv
    have hclient : ∀ s, v'.sessions[i]? = some s → s.client = c := fun s hs => by
      obtain ⟨rfl, rfl⟩ := eq_push_of_create hv
      rw [sessions_push, if_pos rfl] at hs
      cases hs
      rfl
    obtain ⟨hm, hcl⟩ : Moves W now (v', k) (v'.reclaim k i claimed.toList).2 ∧
        ∀ s, (v'.reclaim k i claimed.toList).2.1.sessions[i]? = some s → s.client = c :=
      moves_reclaim i claimed.toList hclient
    revert hm hcl
    rcases v'.reclaim k i claimed.toList with ⟨_ | _, w, k'⟩ <;> intro hm hcl
    · exact (hpush.trans hm).trans (moves_terminate fun s hs => hcl s hs ▸ hc)
    · exact hpush.trans hm

theorem moves_keepAlive (hv : v.Kept) {c : Client} {claimed : Option (Dict Mode)}
    (hc : claimed.isSome = true → W c) : Moves W now (v, k) (v.keepAlive k c claimed now).2 := by
  unfold keepAlive
  split
  · exact moves_park _
  · split
    · exact .refl
    · rename_i hv
      exact (moves_create hv).trans (moves_park _)
  · rename_i i s claimed hs
    split
    · exact moves_recover (hc rfl) claimed
    · rename_i he
      have hw : W s.client := (hv.client_of_session? hs).symm ▸ hc rfl
      exact .single (.refresh hw (session?_eq_some_iff.1 hs).2 (by simpa using he))
  · exact moves_recover (hc rfl) _

theorem moves_onLive {α : Type} (c : Client) (op : LockOp)
    {f : Session → Locks Cluster → Except Error α × Session × Locks Cluster}
    (hf : ∀ s l, (f s l).2 = (s.call v.store l op).2) :
    Moves W now (v, k) (v.onLive k c f).2 := by
  unfold onLive
  split
  · exact .refl
  · exact moves_onSession _ _ op hf

theorem moves_join (n : Node) (a : Addr) {k' : Cluster} (h : k.join v.node n a = .ok k') :
    Moves W now (v, k) (v, k') := by
  unfold Cluster.join Cluster.whenLeading at h
  split at h
  · cases h
    exact .single (.members rfl rfl)
  · cases h

end Server

/-- The request is a keep-alive with which the client claims locks. -/
def Request.Claims : Request → Client → Prop
  | .keepAlive d (some _), c => d = c
  | _, _ => False

namespace Server

variable {W : Client → Prop} {now : Nat} {v : Server} {k : Cluster}

theorem moves_lead (hv : v.Kept) (q : Request) :
    Moves q.Claims now (v, k) (v.lead k now q).2 := by
  cases q with
  | initSession c =>
    simp only [lead]
    split
    · exact .refl
    · rename_i hc
      exact moves_create hc
  | keepAlive c claimed =>
    refine moves_keepAlive hv fun hs => ?_
    cases claimed with
    | none => cases hs
    | some claimed => rfl
  | openLock c p => exact moves_onLive c (.openLock p) fun _ _ => rfl
  | deleteLock c p => exact moves_onLive c (.deleteLock p) fun _ _ => rfl
  | acquireLock c p m => exact moves_onLive c (.acquireLock p m) fun _ _ => rfl
  | releaseLock c p => exact moves_onLive c (.releaseLock p) fun _ _ => rfl
  | join n a =>
    simp only [lead]
    split
    · exact .refl
    · rename_i hk
      exact moves_join n a hk

theorem moves_serve (hv : v.Kept) (q : Request) :
    Moves q.Claims now (v, k) (v.serve k now q).2 := by
  unfold serve
  split
  · exact moves_lead hv q
  · exact .refl

theorem moves_of_serve (hv : v.Kept) {q : Request} {r : Handled Response} {v' : Server}
    {k' : Cluster} (hs : v.serve k now q = (r, v', k')) : Moves q.Claims now (v, k) (v', k') := by
  have hm : Moves q.Claims now (v, k) (v.serve k now q).2 := moves_serve hv q
  rw [hs] at hm
  exact hm

theorem moves_look? {i : Nat} {x : Server × Cluster} (h : v.look? k i now = some x) :
    Moves W now (v, k) x := by
  unfold look? at h
  split at h
  · cases h
  · rename_i s hi
    split at h
    · cases h
    · rename_i s' hl
      cases h
      exact .single (.tend hi (Session.tended_look hl))
    · rename_i hl
      cases h
      exact .single (.expire hi (Session.deadline_le_of_look hl))

theorem moves_answer? {i t : Nat} {r : Except Error KeepAlive} {v' : Server}
    (h : v.answer? k i = some (t, r, v')) : Moves W now (v, k) (v', k) := by
  unfold answer? at h
  obtain ⟨s, hi, h⟩ := Option.bind_eq_some_iff.1 h
  obtain ⟨⟨u, a, s'⟩, ha, h⟩ := Option.bind_eq_some_iff.1 h
  cases h
  exact .single (.tend hi (Session.tended_answer? ha))

theorem moves_abandon (i t : Nat) : Moves W now (v, k) (v.abandon i t, k) := by
  unfold abandon
  split
  · exact .refl
  · rename_i s hi
    exact .single (.tend hi (Session.tended_abandon s t))

/-! ## The registry keeps -/

theorem Move.kept {x y : Server × Cluster} (hm : Move W now x y) (h : x.1.Kept) : y.1.Kept := by
  cases hm with
  | begin c hc => exact h.push hc now
  | @tend v k i s s' hi ht =>
    exact h.set hi s' ht.client ht.config (fun hl => ht.ended ▸ hl)
      (fun he => ht.held.trans (h.emptied i s hi (ht.ended ▸ he))) v.slots
  | @refresh v k i s _ hi hs =>
    exact h.set hi (s.refresh now) rfl rfl (fun _ => hs)
      (fun he => absurd (hs.symm.trans he) (by decide)) v.slots
  | @call v k i s op hi =>
    rw [onSession_of_some hi]
    have hc := Session.call_eq_held v.store s (v.locks k) op
    refine h.set hi _ ?_ ?_ (fun hl => ?_) (fun he => ?_) _
    · rw [hc]
    · rw [hc]
    · rw [hc] at hl
      exact hl
    · rw [hc] at he
      show (s.call (Cluster.storeOf v.node) (v.locks k) op).2.1.held = ∅
      rw [Session.call_of_ended v.node (s := s) he]
      exact h.emptied i s hi he
  | @expire v k i s hi _ | @terminate v k i s _ hi =>
    unfold Server.terminate
    rw [onSession_of_some hi]
    unfold Session.terminate
    split
    · exact h.set hi s rfl rfl id (fun he => h.emptied i s hi he) _
    · have hc : s.close.ended = true := rfl
      exact h.set hi s.close rfl rfl (fun hl => absurd (hc.symm.trans hl) (by decide))
        (fun _ => rfl) _
  | members => exact h

theorem Moves.kept {x y : Server × Cluster} (hm : Moves W now x y) (h : x.1.Kept) : y.1.Kept := by
  induction hm with
  | refl => exact h
  | tail _ hm ih => exact hm.kept ih

end Server

end LockCell
