import LockCell.Proofs.Cell.Exclusion
import LockCell.Proofs.Cell.Work

/-
  LockCell.Proofs.Cell.Deposed — a server that does not lead only winds down.

  A server that has lost the leadership keeps its sessions and its lock table, and the watches
  of its sessions go on looking. Requests reach it as before, and callers are parked in it from
  the time when it led. All that comes of that is that sessions end, and that the locks that
  they list go free (`Server.WindsDown`): no session is made, none comes back, and no lock gets
  an owner. Every request is refused with the leader's address, and a parked caller is told the
  same or that its session is over (`Refuses`). The log and the members change meanwhile, but
  never at the request of anyone at that server.
-/

namespace LockCell

/-- A session that is called on no more: until it ends it has the locks that it had. -/
structure Session.Wanes (s s' : Session) : Prop where
  client : s'.client = s.client
  ended : s.ended = true → s'.ended = true
  held : s'.ended = false → s'.held = s.held

namespace Session

variable {s s' s'' : Session}

theorem Wanes.refl (s : Session) : s.Wanes s := ⟨rfl, id, fun _ => rfl⟩

theorem Wanes.live (h : s.Wanes s') (hl : s'.ended = false) : s.ended = false := by
  cases he : s.ended with
  | false => rfl
  | true => exact absurd (hl.symm.trans (h.ended he)) (by decide)

theorem Wanes.trans (h : s.Wanes s') (h' : s'.Wanes s'') : s.Wanes s'' where
  client := h'.client.trans h.client
  ended he := h'.ended (h.ended he)
  held hl := (h'.held hl).trans (h.held (h'.live hl))

theorem Tended.wanes (h : s.Tended s') : s.Wanes s' := ⟨h.client, h.ended.trans, fun _ => h.held⟩

/-- Only an ended session is reported to be over, and with the lease that it has. -/
theorem ended_of_answer? {t : Nat} {a : KeepAlive} (h : s.answer? = some (t, a, s'))
    (ha : a.expired = true) : s.ended = true ∧ a = ⟨s.lease, true⟩ := by
  obtain ⟨u, -, hu⟩ := List.exists_of_findSome?_eq_some h
  obtain ⟨⟨b, w⟩, hw, e⟩ := Option.map_eq_some_iff.1 hu
  cases e
  unfold settled? at hw
  split at hw
  · cases hw
    exact ⟨‹_›, rfl⟩
  · repeat' split at hw
    all_goals cases hw
    all_goals cases ha

end Session

namespace Server

variable {v v' v'' : Server} {k : Cluster} {i : Nat} {s s' : Session}

/-- Nothing is begun at the server: sessions end at most, and locks lose those owners whose
sessions end. -/
structure WindsDown (v v' : Server) : Prop where
  node : v'.node = v.node
  registry : v'.registry = v.registry
  size : v'.sessions.size = v.sessions.size
  session : ∀ (i : Nat) (s : Session), v.sessions[i]? = some s →
    ∃ s', v'.sessions[i]? = some s' ∧ s.Wanes s'
  owner : ∀ x p m, v'.slots.Holds x p m → v.slots.Holds x p m
  lost : ∀ x p m, v.slots.Holds x p m → v'.slots.Holds x p m ∨ v.Ends v' x p

namespace WindsDown

theorem refl (v : Server) : v.WindsDown v :=
  ⟨rfl, rfl, rfl, fun _ s hs => ⟨s, hs, .refl s⟩, fun _ _ _ => id, fun _ _ _ => Or.inl⟩

/-- A session that is there afterwards was there before. -/
theorem exists_session (h : v.WindsDown v') (hs : v'.sessions[i]? = some s') :
    ∃ s, v.sessions[i]? = some s ∧ s.Wanes s' := by
  have hlt := (Array.getElem?_eq_some_iff.1 hs).1
  rw [h.size] at hlt
  obtain ⟨t, ht, hw⟩ := h.session i _ (Array.getElem?_eq_getElem hlt)
  rw [hs] at ht
  cases ht
  exact ⟨_, Array.getElem?_eq_getElem hlt, hw⟩

theorem trans (h : v.WindsDown v') (h' : v'.WindsDown v'') : v.WindsDown v'' where
  node := h'.node.trans h.node
  registry := h'.registry.trans h.registry
  size := h'.size.trans h.size
  session i s hs := by
    obtain ⟨t, ht, hst⟩ := h.session i s hs
    obtain ⟨u, hu, htu⟩ := h'.session i t ht
    exact ⟨u, hu, hst.trans htu⟩
  owner x p m hp := h.owner x p m (h'.owner x p m hp)
  lost x p m hp := by
    rcases h.lost x p m hp with hp' | ⟨i, s, t, hi, hx, hl, hps, ht, he⟩
    · refine (h'.lost x p m hp').imp_right fun hx => ?_
      obtain ⟨i, t, u, ht, hx, hl, hpt, hu, he⟩ := hx
      obtain ⟨s, hs, hst⟩ := h.exists_session ht
      have hte : t.ended = false := by simpa [Session.live] using hl
      have hse : s.live = true := by simp [Session.live, hst.live hte]
      exact ⟨i, s, u, hs, hst.client.symm.trans hx, hse, hst.held hte ▸ hpt, hu, he⟩
    · obtain ⟨u, hu, htu⟩ := h'.session i t ht
      have hte : t.ended = true := by simpa [Session.live] using he
      exact Or.inr ⟨i, s, u, hi, hx, hl, hps, hu, by simp [Session.live, htu.ended hte]⟩

end WindsDown

theorem Deserted.windsDown (h : v.Deserted v') : v.WindsDown v' := by
  have hslots : v'.slots = v.slots := by rw [h.frame]
  refine ⟨by rw [h.frame], by rw [h.frame], h.size, fun i s hs => ?_, ?_, ?_⟩
  · obtain ⟨l, hl⟩ := h.session i s hs
    exact ⟨_, hl, rfl, id, fun _ => rfl⟩
  · exact fun x p m hp => hslots ▸ hp
  · exact fun x p m hp => Or.inl (hslots ▸ hp)

/-- One session wanes; if it ends, its client may lose the locks on its list. -/
theorem windsDown_after {l : Locks Cluster} (hi : v.sessions[i]? = some s) (hw : s.Wanes s')
    (ho : ∀ x p m, l.slots.Holds x p m → v.slots.Holds x p m)
    (hl : ∀ x p m, v.slots.Holds x p m → l.slots.Holds x p m ∨
      x = s.client ∧ p ∈ s.held ∧ s.live = true ∧ s'.live = false) :
    v.WindsDown (v.after i s' l).1 := by
  have self : (v.after i s' l).1.sessions[i]? = some s' := by rw [sessions_after hi, if_pos rfl]
  refine ⟨rfl, rfl, by simp [after, setSession], fun j t hj => ?_, ho, fun x p m hp => ?_⟩
  · rw [sessions_after hi]
    split
    · rename_i e
      rw [e, hi] at hj
      cases hj
      exact ⟨s', rfl, hw⟩
    · exact ⟨t, hj, .refl t⟩
  · refine (hl x p m hp).imp_right fun hx => ?_
    obtain ⟨rfl, hps, hlive, he⟩ := hx
    exact ⟨i, s, s', hi, rfl, hlive, hps, self, he⟩

theorem windsDown_tend (hi : v.sessions[i]? = some s) (ht : s.Tended s') :
    v.WindsDown (v.setSession i s') :=
  windsDown_after (l := v.locks .empty) hi ht.wanes (fun _ _ _ => id) fun _ _ _ => Or.inl

/-- The end of a session lets its locks go and writes nothing. -/
theorem windsDown_terminate (hv : v.slots.Sound) (k : Cluster) (i : Nat) :
    v.WindsDown (v.terminate k i).1 ∧ (v.terminate k i).2 = k := by
  cases hi : v.sessions[i]? with
  | none =>
    unfold terminate onSession
    rw [hi]
    exact ⟨.refl v, rfl⟩
  | some s =>
    cases he : s.ended with
    | true =>
      have h := windsDown_after (l := v.locks k) hi (.refl s) (fun _ _ _ => id) fun _ _ _ => Or.inl
      unfold terminate
      rw [onSession_of_some hi]
      simp only [Session.terminate, he, if_true]
      exact ⟨h, rfl⟩
    | false =>
      have hh := Session.holds_drain v.node (l := v.locks k) s.client s.held.keys hv
      rw [terminate_of_live hi he]
      refine ⟨windsDown_after hi ⟨rfl, fun _ => rfl, fun h => by cases h⟩
        (fun x p m hp => ((hh x p m).1 hp).1) fun x p m hp => ?_,
        Session.store_drain v.node s.client s.held.keys (l := v.locks k) hv⟩
      by_cases hx : x = s.client ∧ p ∈ s.held.keys ∧ p ∈ k.contents
      · exact Or.inr ⟨hx.1, Std.ExtTreeMap.mem_keys.1 hx.2.1, by simp [Session.live, he], rfl⟩
      · exact Or.inl ((hh x p m).2 ⟨hp, hx⟩)

/-- What comes of clocks winds the server down, whoever leads, and writes nothing. -/
theorem windsDown_does (hv : v.slots.Sound) {a : Act} (ha : a.Remote) (now : Nat) :
    (∃ q, a = .request q) ∨ v.WindsDown (v.does k now a).1 ∧ (v.does k now a).2 = k := by
  cases a with
  | request q => exact Or.inl ⟨q, rfl⟩
  | look i =>
    refine Or.inr ?_
    rcases does_look (v := v) (k := k) now i with h | h | ⟨s, s', hi, ht, h⟩ <;> rw [h]
    · exact ⟨.refl v, rfl⟩
    · exact windsDown_terminate hv k i
    · exact ⟨windsDown_tend hi ht, rfl⟩
  | answer i =>
    refine Or.inr ?_
    rcases does_answer (v := v) (k := k) now i with h | ⟨s, s', hi, ht, h⟩ <;> rw [h]
    · exact ⟨.refl v, rfl⟩
    · exact ⟨windsDown_tend hi ht, rfl⟩
  | create | terminateClient | keepAlive | call | park | refresh | terminate | abandon =>
    exact ha.elim

/-- A server that does not lead winds down, whatever comes to it. -/
theorem windsDown_does_of_not_leads (hv : v.slots.Sound) (hl : k.leads v.node = false) {a : Act}
    (ha : a.Remote) (now : Nat) :
    v.WindsDown (v.does k now a).1 ∧ (v.does k now a).2 = k := by
  rcases windsDown_does hv ha now with ⟨q, rfl⟩ | h
  · simp only [does, serve_of_not_leads hl, and_true]
    exact .refl v
  · exact h

/-- Whoever is parked in a server that does not lead is sent away, or told that the session is
over. -/
theorem answer?_of_not_leads (hl : k.leads v.node = false) {t : Nat} {r : Except Error KeepAlive}
    (h : v.answer? k i = some (t, r, v')) :
    r = .error k.refusal ∨
      ∃ s, v.sessions[i]? = some s ∧ s.ended = true ∧ r = .ok ⟨s.lease, true⟩ := by
  obtain ⟨s, hi, h⟩ := Option.bind_eq_some_iff.1 h
  obtain ⟨⟨u, a, s'⟩, ha, h⟩ := Option.bind_eq_some_iff.1 h
  cases h
  unfold renewed
  cases he : a.expired with
  | false =>
    refine Or.inl ?_
    rw [if_neg (by simp [hl])]
  | true =>
    obtain ⟨hs, rfl⟩ := Session.ended_of_answer? ha he
    exact Or.inr ⟨s, hi, hs, rfl⟩

end Server

namespace Cell

variable {c c' : Cell} {n : Node} {i : Nat} {v : Server}

/-! ## One turn -/

theorem remote_of_outer {a : Server.Act} (h : a.Remote ∨ ∃ s : CellStep, s.Outer ∧ s.Does a) :
    a.Remote := by
  rcases h with h | ⟨s, hs, ha⟩
  · exact h
  · exact hs.remote ha

/-- What happens to a server while its node does not lead. -/
theorem Turn.windsDown (ht : Turn (fun _ s => s.Outer) c c') (hc : c.Whole)
    (hv : c.servers[i]? = some v) (hl : c.cluster.leads v.node = false) :
    ∃ v', c'.servers[i]? = some v' ∧ v.WindsDown v' := by
  obtain ⟨v', hv', hd | ⟨a, ha, hd⟩⟩ := ht.server (fun _ _ hs => hs.ordinary) hv
  · exact ⟨v', hv', hd.windsDown⟩
  · obtain ⟨hw, -⟩ :=
      Server.windsDown_does_of_not_leads (hc i v hv).2 hl (remote_of_outer ha) c.now
    exact ⟨v', hv', hw.trans hd.windsDown⟩

/-- The log and the members change only at the request of somebody at the leader. -/
theorem Turn.written (ht : Turn (fun _ s => s.Outer) c c') (hc : c.Whole) :
    c'.cluster = { c.cluster with leader := c'.cluster.leader, followed := c'.cluster.followed } ∨
      ∃ (j : Nat) (w : Server) (q : Request), c.servers[j]? = some w ∧
        c.cluster.leads w.node = true ∧ c'.cluster = (w.serve c.cluster c.now q).2.2 := by
  rcases works_turn (fun _ _ hs => hs.ordinary) ht with h | ⟨s, k, hs, hk, h⟩
  · cases h with
    | idle h => exact Or.inl (by rw [h.cluster])
    | @act j w a hw ha h =>
      have hk : c'.cluster = (w.does c.cluster c.now a).2 := h.cluster
      rcases Server.windsDown_does (k := c.cluster) (hc j w hw).2 (remote_of_outer ha) c.now with
        ⟨q, rfl⟩ | ⟨-, he⟩
      · cases hl : c.cluster.leads w.node with
        | false =>
          simp only [Server.does, Server.serve_of_not_leads hl] at hk
          exact Or.inl (by rw [hk])
        | true => exact Or.inr ⟨j, w, q, hw, hl, hk⟩
      · exact Or.inl (by rw [hk, he])
  · rcases hk with ⟨m, t, rfl⟩ | hk
    · exact hs.elim
    · have e : c'.cluster = k := h.cluster
      exact Or.inl (by rw [e]; exact hk)

/-! ## What the server answers -/

/-- The server sends away whoever comes to it, with the leader's address, and nothing comes of
that but the answer. -/
structure Refuses (c : Cell) (i : Nat) (v : Server) : Prop where
  serve : ∀ q, v.serve c.cluster c.now q =
    (.done (.error (.notLeader c.cluster.leaderAddr?)), v, c.cluster)
  /-- A request at the router of its node. -/
  http : ∀ n tag m q, c.serverOf? n = some (i, v) → Http.read m = .ok (.call q) →
    (c.act (.call tag (.http n m))).2 = (c.beginCall tag .http).2.finish c.fresh
      (.http 200 (.reply q.call (.error (.notLeader c.cluster.leaderAddr?))))
  /-- A request that comes over the network. -/
  reach : ∀ f q, c.hosts[f.addr]? = some ⟨i, true⟩ → f.request = some q →
    c.reach f = c.deliver f (f.deliver (.reply (.error (.notLeader c.cluster.leaderAddr?))))
  /-- A keep-alive that came while the server led; its session may be over meanwhile. -/
  parked : ∀ j t r w, v.answer? c.cluster j = some (t, r, w) →
    r = .error (.notLeader c.cluster.leaderAddr?) ∨
      ∃ s, v.sessions[j]? = some s ∧ s.ended = true ∧ r = .ok ⟨s.lease, true⟩

theorem setServer_self (hv : c.servers[i]? = some v) : c.setServer i v c.cluster = c := by
  rw [setServer, setIfInBounds_self hv]

theorem refuses_of_not_leads (hv : c.servers[i]? = some v) (hl : c.cluster.leads v.node = false) :
    c.Refuses i v := by
  have hs : ∀ q, v.serve c.cluster c.now q =
      (.done (.error (.notLeader c.cluster.leaderAddr?)), v, c.cluster) := fun q =>
    Server.serve_of_not_leads hl c.now q
  constructor
  case serve => exact hs
  case http =>
    intro n tag m q hn hm
    have hset : (c.beginCall tag .http).2.setServer i v c.cluster = (c.beginCall tag .http).2 :=
      setServer_self (c := (c.beginCall tag .http).2) hv
    have hserve : v.serve (c.beginCall tag .http).2.cluster (c.beginCall tag .http).2.now q = _ :=
      hs q
    simp only [act, actCall, hn, beginHttp, hm, hserve, hset]
    rfl
  case reach =>
    intro f q hh hq
    unfold Cell.reach
    simp only [hh, hv, hq, hs, setServer_self hv, Option.bind_eq_bind, Option.bind_some,
      Option.pure_def, if_true]
    rfl
  case parked => exact fun j t r w h => Server.answer?_of_not_leads hl h

/-! ## A stretch of a run -/

/-- Turns after each of which the node does not lead. -/
abbrev Deposed (n : Node) : Cell → Cell → Prop :=
  Relation.ReflTransGen fun c c' => Turn (fun _ s => s.Outer) c c' ∧ c'.cluster.leads n = false

theorem Deposed.not_leads (h : Deposed n c c') (hl : c.cluster.leads n = false) :
    c'.cluster.leads n = false := by
  cases h with
  | refl => exact hl
  | tail _ ht => exact ht.2

theorem Deposed.whole (h : Deposed n c c') (hc : c.Whole) : c'.Whole := by
  induction h with
  | refl => exact hc
  | tail _ ht ih => exact ht.1.ordinary.whole ih

theorem Deposed.windsDown (h : Deposed n c c') (hc : c.Whole) (hl : c.cluster.leads n = false)
    (hv : c.servers[i]? = some v) (hn : v.node = n) :
    ∃ v', c'.servers[i]? = some v' ∧ v.WindsDown v' := by
  induction h with
  | refl => exact ⟨v, hv, .refl v⟩
  | @tail d d' h ht ih =>
    obtain ⟨w, hw, hd⟩ := ih
    have hlw : d.cluster.leads w.node = false := by
      rw [hd.node, hn]
      exact Deposed.not_leads h hl
    obtain ⟨v', hv', hd'⟩ := ht.1.windsDown (Deposed.whole h hc) hw hlw
    exact ⟨v', hv', hd.trans hd'⟩

/-- **A node that does not lead only winds down.** Through a stretch of a run in which a node
does not lead, its server begins no session and brings none back, and no lock in its table gets
an owner; owners go only when a session of theirs that lists the lock ends. All along it
refuses every request, with the address of whoever leads then. The log and the members change
in no turn but at the request of somebody at another node, which leads. -/
theorem windsDown_of_deposed (lease : LeaseConfig) (latency : Nat)
    (nodes : List (Node × Addr × Addr)) (leader : Option Node)
    (hr : Turns (fun _ s => s.Outer) (start lease latency nodes leader) c)
    (hl : c.cluster.leads n = false) (hd : Deposed n c c') :
    (∀ (i : Nat) (v : Server), c.servers[i]? = some v → v.node = n →
      ∃ v', c'.servers[i]? = some v' ∧ v.WindsDown v' ∧ c'.Refuses i v') ∧
    ∀ d, Turn (fun _ s => s.Outer) c' d →
      d.cluster = { c'.cluster with leader := d.cluster.leader, followed := d.cluster.followed } ∨
        ∃ (j : Nat) (w : Server) (q : Request), c'.servers[j]? = some w ∧ w.node ≠ n ∧
          c'.cluster.leads w.node = true ∧ d.cluster = (w.serve c'.cluster c'.now q).2.2 := by
  have hc : c.Whole := hr.invariant (fun _ _ ht => ht.ordinary.whole)
    (whole_start lease latency nodes leader)
  have hl' := Deposed.not_leads hd hl
  refine ⟨fun i v hv hn => ?_, fun d ht => ?_⟩
  · obtain ⟨v', hv', hw⟩ := Deposed.windsDown hd hc hl hv hn
    exact ⟨v', hv', hw, refuses_of_not_leads hv' (by rw [hw.node, hn]; exact hl')⟩
  · refine (ht.written (Deposed.whole hd hc)).imp_right fun hx => ?_
    obtain ⟨j, w, q, hw, hlw, hq⟩ := hx
    refine ⟨j, w, q, hw, fun e => ?_, hlw, hq⟩
    rw [e, hl'] at hlw
    cases hlw

/-- A client takes a lock at `a`, and `b` is elected. -/
def handedOver : List CellStep :=
  [ask "a:1" (.initSession "x"), ask "a:1" (.openLock "x" "L"),
   ask "a:1" (.acquireLock "x" "L" .exclusive), .elect "b"]

/-- The client asks `a` once more, and its lease there runs out. -/
def lapsing : List (CellStep × Nat) := [(ask "a:1" (.openLock "x" "M"), 41)]

/-- The client is an owner of the lock at `a`, whose server is the first. -/
def ownedAtFirst (x : Client) (p : Path) (c : Cell) : Bool :=
  (c.servers[0]?).any fun v => v.node == "a" && (v.slots.record? p).any (·.ownedBy x)

theorem windsDown_of_lapsing :
    let c₀ := start .fast 0 [("a", "a:1", "a:1"), ("b", "b:1", "b:1")] (some "a")
    ∃ c c' v v', Turns (fun _ s => s.Outer) c₀ c ∧ c.cluster.leads "a" = false ∧
      Deposed "a" c c' ∧ c.ownedAtFirst "x" "L" = true ∧ c'.ownedAtFirst "x" "L" = false ∧
      c.servers[0]? = some v ∧ c'.servers[0]? = some v' ∧ v.WindsDown v' ∧ c'.Refuses 0 v' := by
  intro c₀
  have hr : Turns (fun _ s => s.Outer) c₀ (c₀.steps handedOver) := by
    refine turns_steps (Q := Whole) (fun _ _ ht => ht.ordinary.whole) (fun _ h => h.kept)
      (fun s hs => Or.inl fun _ => ?_) (whole_start _ _ _ _)
    simp only [handedOver, List.mem_cons, List.not_mem_nil, or_false] at hs
    rcases hs with rfl | rfl | rfl | rfl <;> trivial
  have hl : (c₀.steps handedOver).cluster.leads "a" = false := by decide +kernel
  have hrun : (c₀.steps handedOver).ownedAtFirst "x" "L" = true ∧
      (script (fun c => !c.cluster.leads "a") lapsing (c₀.steps handedOver)).any (fun c =>
        !c.ownedAtFirst "x" "L") = true := by decide +kernel
  obtain ⟨ho, hs⟩ := hrun
  obtain ⟨c', hc', hno⟩ := (Option.any_eq_true _ _).1 hs
  have hd : Deposed "a" (c₀.steps handedOver) c' := by
    refine settledTurns_of_script (P := fun _ s => s.Outer) (fun _ _ ht h => ?_) ?_ hc'
    · exact ⟨ht.turn fun _ _ => id, by simpa using h⟩
    · intro y hy _
      simp only [lapsing, List.mem_cons, List.not_mem_nil, or_false] at hy
      subst hy
      trivial
  obtain ⟨v, hv, hn⟩ := (Option.any_eq_true _ _).1 ho
  rw [Bool.and_eq_true, beq_iff_eq] at hn
  obtain ⟨v', hv', hw⟩ := (windsDown_of_deposed .fast 0 _ (some "a") hr hl hd).1 0 v hv hn.1
  exact ⟨_, c', v, v', hr, hl, hd, ho, by simpa using hno, hv, hv', hw⟩

end Cell

end LockCell
