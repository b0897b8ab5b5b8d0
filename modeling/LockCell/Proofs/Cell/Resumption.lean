import LockCell.Proofs.Cell.Takeover

/-
  LockCell.Proofs.Cell.Resumption — a client out of jeopardy, and the locks that it believes it
  holds.

  What is done from outside is fair to a client if its locks are left to its sessions
  (`CellStep.Leaves`, `fair_act`). So along a run in which that is so, no reply is lost and every
  state is covered, the books stay in order (`Steady`), and a session that comes out of jeopardy
  holds at its server what it believes it holds (`bearsOut_unless_uncovered`).

  That every state is covered is not for the cell to say. A client that goes from one server to
  another and back again finds its first session there, still live and without the locks that it
  has taken in between (`movedBack`): the server says yes to its claims and does not look at them.
-/

namespace LockCell

/-- What is done leaves the client's locks to its sessions: nobody else calls in its name or
makes it a session, and none of its lock calls that are out is given up. -/
def CellStep.Leaves (x : Client) (c : Cell) : CellStep → Prop
  | .abort tag => ∀ id, c.tags[tag]? = some id → ∀ (k : Nat) (s : ClientSession),
      c.clients[k]? = some s → s.client = x → ∀ d ∈ s.calls, d.id = id → d.state ≠ .flying
  | .call _ (.managerKeepAlive _ y _) => y ≠ x
  | .call _ (.http _ m) => ∀ q, Http.read m = .ok (.call q) → q.sender? ≠ some x
  | .manager _ (.create y _) => y ≠ x
  | .session h s => s ≠ .info → ∀ i j v t, c.handles[h]? = some (i, j) →
      c.servers[i]? = some v → v.sessions[j]? = some t → t.client ≠ x
  | _ => True

namespace Cell

variable {x : Client} {c c' c'' : Cell} {i : Nat} {s : ClientSession}

/-! ## Peers hang up -/

/-- Client sessions stay, in the phases that they are in. -/
def Phases (c c' : Cell) : Prop :=
  ∀ (i : Nat) (s : ClientSession), c.clients[i]? = some s →
    ∃ t : ClientSession, c'.clients[i]? = some t ∧ t.client = s.client ∧ t.phase = s.phase

theorem Phases.of_eq (h : c'.clients = c.clients) : Phases c c' :=
  fun _ s hi => ⟨s, h ▸ hi, rfl, rfl⟩

theorem Phases.trans (h : Phases c c') (h' : Phases c' c'') : Phases c c'' := by
  intro i s hi
  obtain ⟨t, ht, hc, hp⟩ := h i s hi
  obtain ⟨u, hu, hc', hp'⟩ := h' i t ht
  exact ⟨u, hu, hc'.trans hc, hp'.trans hp⟩

theorem Phases.not_resumes {s' : ClientSession} (h : Phases c c') : ¬ Resumes x c c' s' := by
  rintro ⟨-, ⟨i, s, e, hi, -, hj, hi'⟩, ha⟩
  obtain ⟨t, ht, -, hp⟩ := h i s hi
  rw [ht] at hi'
  cases hi'
  cases hj.symm.trans (hp.symm.trans ha)

theorem phases_searchOn (c : Cell) (id : Nat) (name : Option String) (next : Search.Next) :
    Phases c (c.searchOn id name next) := by
  cases next with
  | ask s => exact .of_eq rfl
  | found s =>
    have hb : Phases c (c.born id s) := by
      intro j t hj
      refine ⟨t, ?_, rfl, rfl⟩
      have hlt := (Array.getElem?_eq_some_iff.1 hj).1
      simp only [born]
      rw [Array.getElem?_push, if_neg (by omega), hj]
    cases name with
    | some n => exact hb.trans (.of_eq (fades_finish (W := fun _ => False) _ _ _).clients)
    | none => exact hb
  | failed e =>
    cases name with
    | some n => exact .of_eq (fades_finish (W := fun _ => False) _ _ _).clients
    | none => exact .of_eq rfl

theorem phases_deliver (c : Cell) (f : Flight) (d : Delivery) : Phases c (c.deliver f d) := by
  have hd : Phases c (c.dropFlight f.id) :=
    .of_eq (fades_dropFlight (W := fun _ => False) c f.id).clients
  unfold Cell.deliver
  dsimp only
  split
  · exact hd.trans (.of_eq (fades_finish (W := fun _ => False) _ _ _).clients)
  · split
    · exact hd.trans (phases_searchOn _ _ _ _)
    · exact hd
  · split
    · rename_i s hi
      refine hd.trans fun j t hj => ?_
      rw [clients_setClient hi]
      split
      · rename_i e
        subst e
        rw [hi] at hj
        cases hj
        exact ⟨_, rfl, ClientSession.client_answer .., ClientSession.phase_answer ..⟩
      · exact ⟨t, hj, rfl, rfl⟩
    · exact hd
  · refine hd.trans ?_
    split <;> exact .of_eq rfl

theorem fair_hangUp (h : Safe x c) (ho : Owns x c) (a : Addr) : Fair x c (c.hangUp a) := by
  obtain ⟨-, howns, hphases⟩ := h.hangUp_induction (Q := fun d => Owns x d ∧ Phases c d)
    ⟨ho, .of_eq rfl⟩ (fun d f hs hd hf => ⟨(fair_deliver_error hs hd.1 hf (outcome_closed f)).owns,
      hd.2.trans (phases_deliver d f .closed)⟩) a
  exact ⟨howns, fun _ _ hr => absurd hr hphases.not_resumes⟩

theorem fair_down (h : Safe x c) (ho : Owns x c) (a : Addr) : Fair x c (c.down a) := by
  have hc := calm_setUp (x := x) c a false
  exact hc.trans_fair (fair_hangUp (h.setUp a false) (ho.calm hc h.kept) a)

/-! ## What is done from outside -/

theorem calm_park (c : Cell) (i : Nat) (h : Handled KeepAlive) (w : Holder) (id : Nat)
    (r : Except Error KeepAlive → Result) : Calm x c (c.park i h w id r) := by
  unfold park
  split
  · exact calm_finish _ _ _
  · exact calm_waiters _ _

theorem calm_beginHttp (hk : c.Kept) (id : Nat) {i : Nat} {v : Server}
    (hv : c.servers[i]? = some v) {m : Http.Message}
    (hm : ∀ q, Http.read m = .ok (.call q) → q.sender? ≠ some x) :
    Calm x c (c.beginHttp id i v m) := by
  unfold Cell.beginHttp
  split
  · exact calm_finish _ _ _
  · exact calm_finish _ _ _
  · rename_i q hq
    have hc := calm_does hk hv (a := .request q) (hm q hq)
      (Request.not_claims_of_sender (hm q hq)) nofun
    simp only [Server.does] at hc
    revert hc
    rcases v.serve c.cluster c.now q with ⟨r | ⟨j, t⟩, v', k'⟩ <;> intro hc
    · exact hc.trans (calm_finish _ _ _)
    · exact hc.trans (calm_waiters _ _)

/-- A number that is new has no lock call pending. -/
theorem Safe.free_fresh (h : Safe x c) : c.Free c.fresh := by
  intro k s hk d hd e
  have hlt := h.awaits.playLt d.id (Or.inl ⟨k, s, hk, d, hd, rfl⟩)
  omega

theorem fair_beginProgram (h : Safe x c) (ho : Owns x c) (tag : String) (args : List String) :
    Fair x c (c.beginProgram tag args) := by
  have hc : Calm x c (c.beginCall tag .program).2 := calm_calls _ _ _ _
  unfold Cell.beginProgram
  dsimp only
  split
  · exact (hc.trans (calm_finish _ _ _)).fair h.kept ho
  · rename_i o _
    let p : ProgramRun := ⟨c.fresh, (Program.start o.config o.command).1,
      (Program.start o.config o.command).2, none⟩
    have hc₁ : Calm x c { (c.beginCall tag .program).2 with
        programs := (c.beginCall tag .program).2.programs ++ [p] } := hc.trans (calm_programs _ _)
    refine hc₁.trans_fair (fair_perform (p := p) ?_ (ho.calm hc₁ h.kept) h.free_fresh)
    exact h.kept

theorem fair_actCall (h : Safe x c) (ho : Owns x c) (tag : String) {s : CallStep}
    (hs : (CellStep.call tag s).Spares x c) (hl : (CellStep.call tag s).Leaves x c) :
    Fair x c (c.actCall tag s).2 := by
  have begun : ∀ k, Calm x c (c.beginCall tag k).2 := fun k => calm_calls _ _ _ _
  have kept : ∀ k, (c.beginCall tag k).2.Kept := fun k => h.kept
  cases s with
  | managerKeepAlive n y claimed =>
    have hy : y ≠ x := hl
    simp only [Cell.actCall]
    split
    · exact (Calm.refl c).fair h.kept ho
    · rename_i i v hv
      refine Calm.fair ((begun .direct).trans (.trans ?_ (calm_park _ _ _ _ _ _))) h.kept ho
      refine calm_does (c := (c.beginCall tag .direct).2) (kept .direct) (server_of_node hv)
        (a := .keepAlive y claimed) (fun e => hy (Option.some.inj e)) ?_ (by simp)
      cases claimed with
      | none => exact not_false
      | some d => exact hy
  | sessionKeepAlive handle =>
    simp only [Cell.actCall]
    split
    · exact (Calm.refl c).fair h.kept ho
    · rename_i i j _
      split
      · exact (Calm.refl c).fair h.kept ho
      · rename_i v hv
        refine Calm.fair ((begun .direct).trans (.trans ?_ (calm_park _ _ _ _ _ _))) h.kept ho
        exact calm_aside (c := (c.beginCall tag .direct).2) (kept .direct) hv (a := .park j) rfl
          (by simp) not_false
  | http n m =>
    simp only [Cell.actCall]
    split
    · exact (Calm.refl c).fair h.kept ho
    · rename_i i v hv
      have hc := calm_beginHttp (x := x) (kept .http) c.fresh (server_of_node hv) hl
      exact ((begun .http).trans hc).fair h.kept ho
  | rpc addr q =>
    exact ((begun .rpc).trans (calm_send _ (fun _ _ e => by cases e) addr q)).fair h.kept ho
  | connect name client servers lease =>
    refine ((begun .search).trans (calm_searchOn _ _ _ fun s hs => ?_)).fair h.kept ho
    exact absurd hs begin_ne_found
  | lock name op =>
    simp only [Cell.actCall]
    split
    · exact (Calm.refl c).fair h.kept ho
    · rename_i k s hk
      split
      · exact (Calm.refl c).fair h.kept ho
      · have hi := client_of_client? hk
        have hb := begun (.lock name k)
        exact hb.trans_fair (fair_call (c := (c.beginCall tag (.lock name k)).2) h.kept
          (ho.calm hb h.kept) hi (fun _ => h.free_fresh k s hi) op)
  | awaitExpiry name =>
    simp only [Cell.actCall]
    split
    · exact (Calm.refl c).fair h.kept ho
    · exact (begun _).fair h.kept ho
  | program args => exact fair_beginProgram h ho tag args

theorem fair_abandon (h : Safe x c) (ho : Owns x c) {p : PendingCall}
    (hp : ∀ (k : Nat) (s : ClientSession), c.clients[k]? = some s → s.client = x →
      ∀ d ∈ s.calls, d.id = p.id → d.state ≠ .flying) : Fair x c (c.abandon p) := by
  have hc : Calm x c { c with calls := c.calls.filter (·.id ≠ p.id) } :=
    .of_eq rfl rfl rfl rfl fun _ => .refl _
  have hk : Kept { c with calls := c.calls.filter (·.id ≠ p.id) } := h.kept
  have ho₁ := ho.calm hc h.kept
  have searched : ∀ d : Cell, Calm x d (d.dropSearch p.id) := fun d =>
    .of_eq rfl rfl rfl rfl fun _ => .refl _
  unfold Cell.abandon
  dsimp only
  refine hc.trans_fair ?_
  split
  · exact (calm_dropWaiter _ _).fair hk ho₁
  · exact (calm_dropWaiter _ _).fair hk ho₁
  · exact (calm_cancel _ _).fair hk ho₁
  · exact ((searched _).trans (calm_cancel _ _)).fair hk ho₁
  · rename_i k _
    exact fair_abandonLock hk ho₁ (hp k)
  · exact (Calm.refl _).fair hk ho₁
  · have gone : ∀ d : Cell, Calm x d
        { ((d.dropSearch p.id).cancel (.search p.id)).cancel (.program p.id) with
          programs := (((d.dropSearch p.id).cancel (.search p.id)).cancel
            (.program p.id)).programs.filter (·.id ≠ p.id) } := fun d =>
      (((searched d).trans (calm_cancel _ _)).trans (calm_cancel _ _)).trans (calm_programs _ _)
    split
    · rename_i k _
      refine (fair_abandonLock hk ho₁ (hp k)).calm (gone _) ?_
      exact (shifts_abandonLock (W := fun _ => False) _ _ _).kept hk
    · exact (gone _).fair hk ho₁

theorem fair_abort (h : Safe x c) (ho : Owns x c) {tag : String}
    (hl : (CellStep.abort tag).Leaves x c) : Fair x c (c.abort tag).2 := by
  unfold Cell.abort
  split
  · exact (Calm.refl c).fair h.kept ho
  · rename_i id htag
    have hc : Calm x c { c with tags := c.tags.erase tag } := calm_calls _ _ _ _
    have h₁ : Safe x { c with tags := c.tags.erase tag } :=
      h.of_eq rfl rfl rfl rfl rfl rfl rfl rfl rfl rfl h.honest rfl
    have ho₁ := ho.calm hc h.kept
    dsimp only
    refine hc.trans_fair ?_
    split
    · exact (Calm.refl _).fair h₁.kept ho₁
    · rename_i p hfind
      obtain rfl : p.id = id := by simpa using List.find?_some hfind
      exact fair_abandon h₁ ho₁ (hl p.id htag)

theorem calm_actManager (hk : c.Kept) {i : Nat} {v : Server} (hv : c.servers[i]? = some v)
    {s : ManagerStep} (hs : s ≠ .terminate x) (hl : ∀ h, s ≠ .create x h) :
    Calm x c (c.actManager i v s).2 := by
  have held : ∀ (d : Cell) h j, Calm x d (actManager.hold i d h j).2 := fun d h j =>
    .of_eq rfl rfl rfl rfl fun _ => .refl _
  cases s with
  | create y h =>
    have hc := calm_does (x := x) hk hv (a := .create y)
      (fun e => hl h (by rw [Option.some.inj e])) not_false (by simp)
    rcases hcr : v.create y c.now with e | ⟨j, w⟩
    · simp only [actManager, hcr]
      exact .refl c
    · simp only [Server.does, hcr] at hc
      simp only [actManager, hcr]
      exact hc.trans (held _ _ _)
  | live y h =>
    simp only [actManager]
    split
    · exact .refl c
    · exact held _ _ _
  | find y h =>
    simp only [actManager]
    split
    · exact .refl c
    · exact held _ _ _
  | terminate y =>
    refine calm_aside hk hv (a := .terminateClient y) rfl (by simp) fun e => hs ?_
    rw [show y = x from e]

theorem calm_actSession (hk : c.Kept) {i j : Nat} {v : Server} {t : Session}
    (hv : c.servers[i]? = some v) (ht : v.sessions[j]? = some t) {s : SessionStep}
    (hs : s ≠ .info → t.client ≠ x) : Calm x c (c.actSession i j v t s).2 := by
  have call : s ≠ .info → ∀ op, Calm x c
      (c.setServer i { v.setSession j (t.call v.store (v.locks c.cluster) op).2.1 with
        slots := (t.call v.store (v.locks c.cluster) op).2.2.slots }
        (t.call v.store (v.locks c.cluster) op).2.2.store) := by
    intro hne op
    have hc := calm_does hk hv (a := .call j op) (by simp [Server.Act.sender?]) not_false fun j' op' e u hu => by
      cases e
      have hx := (hk i v hv).client_of_session? hu
      rw [(Server.session?_eq_some_iff.1 hu).2] at ht
      cases ht
      exact hs hne hx
    simp only [Server.does, Server.onSession_of_some ht] at hc
    exact hc
  have hits : s ≠ .info → ¬ ∃ u, v.sessions[j]? = some u ∧ u.client = x := by
    rintro hne ⟨u, hu, hx⟩
    rw [ht] at hu
    cases hu
    exact hs hne hx
  cases s with
  | openLock p => exact call (by simp) (.openLock p)
  | acquire p m => exact call (by simp) (.acquireLock p m)
  | release p => exact call (by simp) (.releaseLock p)
  | delete p => exact call (by simp) (.deleteLock p)
  | refresh =>
    have hc := calm_aside hk hv (a := .refresh j) rfl (by simp) (hits (by simp))
    rcases hr : t.refresh? c.now with e | t'
    · simp only [actSession, hr]
      exact .refl c
    · simp only [Server.does, ht, hr] at hc
      simp only [actSession, hr]
      exact hc
  | terminate => exact calm_aside hk hv (a := .terminate j) rfl (by simp) (hits (by simp))
  | info => exact .refl c

theorem calm_cluster (c : Cell) (k : Cluster) : Calm x c { c with cluster := k } :=
  .of_eq rfl rfl rfl rfl fun _ => .refl _

theorem calm_actStore (c : Cell) (n : Node) (s : StoreStep) : Calm x c (c.actStore n s).2 := by
  have write : ∀ r, Calm x c (actStore.write c r).2 := by
    intro r
    cases r with
    | error e => exact .refl c
    | ok k => exact calm_cluster c k
  cases s with
  | set | delete | join => exact write _
  | get | leads | leader => exact .refl c

theorem calm_actTable {i : Nat} {v : Server} (hv : c.servers[i]? = some v) (s : TableStep) :
    Calm x c (c.actTable i v s).2 := by
  cases s with
  | openLock | acquire | release | delete => exact calm_setSlots hv _ _
  | record => exact .refl c

/-- Whatever is done that leaves the client's locks to its sessions keeps the books. -/
theorem fair_act (h : Safe x c) (ho : Owns x c) {s : CellStep} (hs : s.Spares x c)
    (hl : s.Leaves x c) : Fair x c (c.act s).2 := by
  have same : ∀ {c' : Cell}, c'.now = c.now → c'.hosts = c.hosts → c'.servers = c.servers →
      c'.clients = c.clients → c'.flights = c.flights → c'.mail = c.mail → Fair x c c' := by
    intro c' hn hh hv hc hf hm
    refine (Calm.of_eq hn hh hv hc fun i => ?_).fair h.kept ho
    unfold out sent errands
    rw [hf, hm]
  cases s with
  | sleep | restart => exact hs.elim
  | abort tag => exact fair_abort h ho hl
  | call tag s => exact fair_actCall h ho tag hs hl
  | elect | stepDown | follow => exact (calm_cluster c _).fair h.kept ho
  | addNode n a l => exact (calm_addNode c n hs l).fair h.kept ho
  | cluster => exact (Calm.refl c).fair h.kept ho
  | store n s =>
    simp only [Cell.act, onServer]
    split
    · exact (Calm.refl c).fair h.kept ho
    · exact (calm_actStore c n s).fair h.kept ho
  | table n s =>
    simp only [Cell.act, onServer]
    split
    · exact (Calm.refl c).fair h.kept ho
    · rename_i hv
      exact (calm_actTable (server_of_node hv) s).fair h.kept ho
  | manager n s =>
    simp only [Cell.act, onServer]
    split
    · exact (Calm.refl c).fair h.kept ho
    · rename_i i v hv
      refine (calm_actManager h.kept (server_of_node hv) hs fun handle e => ?_).fair h.kept ho
      subst e
      exact hl rfl
  | session handle s =>
    simp only [Cell.act]
    split
    · exact (Calm.refl c).fair h.kept ho
    · rename_i i j hh
      split
      · exact (Calm.refl c).fair h.kept ho
      · rename_i v hv
        split
        · exact (Calm.refl c).fair h.kept ho
        · rename_i t ht
          exact (calm_actSession h.kept hv ht fun hne => hl hne i j v t hh hv ht).fair h.kept ho
  | latency | requests | printed | trap | clearTraps => exact same rfl rfl rfl rfl rfl rfl
  | down n =>
    simp only [Cell.act, onSeat]
    split
    · exact (Calm.refl c).fair h.kept ho
    · exact fair_down h ho _
  | up n =>
    simp only [Cell.act, onSeat]
    split
    · exact (Calm.refl c).fair h.kept ho
    · exact (calm_setUp c _ true).fair h.kept ho
  | crash n =>
    simp only [Cell.act, onSeat]
    split
    · exact (Calm.refl c).fair h.kept ho
    · split
      · have hc := calm_cluster (x := x) c c.cluster.stepDown
        exact hc.trans_fair (fair_down (h.cluster _) (ho.calm hc h.kept) _)
      · exact fair_down h ho _
  | close name =>
    simp only [Cell.act]
    split
    · exact (Calm.refl c).fair h.kept ho
    · rename_i k s hk
      exact fair_close h.kept ho (client_of_client? hk)

/-! ## Runs -/

/-- The client's live session at the server that the client session uses has the locks that the
client believes it holds. -/
def BearsOut (c : Cell) (s : ClientSession) : Prop :=
  ∃ (v : Server) (j : Nat) (t : Session), c.serverAt? s.server = some v ∧
    v.session? s.client = some (j, t) ∧ t.ended = false ∧ s.held.Within t.held

/-- A turn in which the client's locks are left to its sessions, no reply is lost and nobody else
goes by its name. -/
structure Pass (x : Client) (c c' : Cell) : Prop where
  turn : SettledTurn (fun c s => s.Spares x c ∧ s.Leaves x c) c c'
  regular : Regular x c'

abbrev Passes (x : Client) : Cell → Cell → Prop := Relation.ReflTransGen (Pass x)

/-- In every state of the run what the client claims is all that it may hold, and whoever says
yes has it. -/
abbrev CoveredPasses (x : Client) : Cell → Cell → Prop :=
  Relation.ReflTransGen fun c c' => Pass x c c' ∧ Covered x c'

/-- What the turns of a covered run preserve. -/
structure Steady (x : Client) (lease : LeaseConfig) (c : Cell) : Prop where
  safe : Safe x c
  single : Single c
  owns : Owns x c
  regular : Regular x c
  covered : Covered x c
  lease_eq : c.lease = lease

variable {lease : LeaseConfig}

theorem Steady.fair (h : Steady x lease c) (hlen : 0 < lease.length) (hp : Pass x c c') :
    Fair x c c' := by
  obtain ⟨ht, -⟩ := hp
  cases ht with
  | act hs => exact fair_act h.safe h.owns hs.1 hs.2
  | next hc =>
    exact fair_next? h.safe h.owns h.regular h.covered h.single (h.lease_eq ▸ hlen) hc
  | @wait t hc =>
    have hp : Phases c (c.setClock t) := .of_eq rfl
    exact ⟨owns_setClock h.safe h.owns hc t, fun _ _ hr => absurd hr hp.not_resumes⟩

theorem Steady.pass (h : Steady x lease c) (hlen : 0 < lease.length) (hp : Pass x c c')
    (hc : Covered x c') : Steady x lease c' := by
  obtain ⟨hs, hl⟩ := Turn.safe (hp.turn.turn fun _ _ hs => hs.1) h.safe
  refine ⟨hs, ?_, (h.fair hlen hp).owns, hp.regular, hc, hl.trans h.lease_eq⟩
  obtain ⟨ht, -⟩ := hp
  cases ht with
  | act hp => exact h.single.act h.safe hp.1
  | next hc => exact h.single.next? h.safe hc
  | wait => exact h.single.adds (.of_eq rfl rfl rfl rfl rfl (Nat.le_refl _))

theorem steady_start (lease : LeaseConfig) (latency : Nat) (nodes : List (Node × Addr × Addr))
    (leader : Option Node) : Steady x lease (start lease latency nodes leader) := by
  have hs : Safe x (start lease latency nodes leader) := safe_start lease latency nodes leader
  have hn := single_start lease latency nodes leader
  obtain ⟨k, servers, seats, hosts, e⟩ := exists_bare_start lease latency nodes leader
  rw [e] at hs hn ⊢
  have none : ∀ (i : Nat) (s : ClientSession),
      (bare lease latency k servers seats hosts).clients[i]? ≠ some s := fun i s hi => by cases hi
  refine ⟨hs, hn, fun _ i s hi => absurd hi (none i s), ⟨?_, ?_, ?_, ?_⟩, ⟨?_, ?_, ?_⟩, rfl⟩
  · exact fun _ hf => (List.not_mem_nil hf).elim
  · exact fun _ ht => (List.not_mem_nil ht).elim
  · exact fun i _ s _ hi => absurd hi (none i s)
  · exact fun _ _ he => (List.not_mem_nil he).elim
  · exact fun i s _ hi => absurd hi (none i s)
  · exact fun i s _ hi => absurd hi (none i s)
  · exact fun i s _ hi => absurd hi (none i s)

theorem steady_of_passes (hlen : 0 < lease.length) (hr : CoveredPasses x c c')
    (h : Steady x lease c) : Steady x lease c' := by
  induction hr with
  | refl => exact h
  | tail _ hp ih => exact ih.pass hlen hp.1 hp.2

/-- Through all elections, requests and delays, a client session that comes out of jeopardy is at
a server where its live session has every lock that it believes it holds, while in every state of
the run what it claims is all that it may hold, and a leader that has a live session of the client
besides the one in use lists what is claimed. Where it does not, it says yes all the same, and the
lock that is missing is still missing after that. -/
theorem bearsOut_unless_uncovered (latency : Nat) (nodes : List (Node × Addr × Addr))
    (leader : Option Node) (hlen : 0 < lease.length) :
    (∀ c c' s', CoveredPasses x (start lease latency nodes leader) c → Pass x c c' →
      Resumes x c c' s' → c'.BearsOut s') ∧
    ∀ (v : Server) (k : Cluster) (now i : Nat) (s : Session) (d : Dict Mode) (p : Path) (m : Mode),
      k.leads v.node = true → v.session? x = some (i, s) → s.ended = false → d[p]? = some m →
      s.held[p]? ≠ some m → ∃ a t, (v.serve k now (.keepAlive x (some d))).1 =
        .done (.ok (.kept a)) ∧ a.expired = false ∧
        (v.serve k now (.keepAlive x (some d))).2.1.session? x = some (i, t) ∧
        t.ended = false ∧ t.held[p]? ≠ some m := by
  refine ⟨fun c c' s' hr hp hres => ?_, fun v k now i s d p m hl hs he _ hm => ?_⟩
  · have h := steady_of_passes hlen hr (steady_start lease latency nodes leader)
    obtain ⟨v, j, t, hv, ht, hlive, hw⟩ :=
      ((h.fair hlen hp).resumes hp.regular.lone s' hres).session
    exact ⟨v, j, t, hv, hres.client ▸ ht, hlive, hw⟩
  · rw [Server.serve_claims_of_live hl hs he]
    obtain ⟨hreg, hi⟩ := Server.session?_eq_some_iff.1 hs
    refine ⟨_, s.refresh now, rfl, rfl, ?_, he, hm⟩
    exact Server.session?_eq_some_iff.2 ⟨hreg, (Server.sessions_setSession hi _ i).trans (if_pos rfl)⟩

/-! ## Runs that get there -/

/-- Replies come back whole, and when there is a client session nobody else asks for anything. -/
def plain (c : Cell) : Bool :=
  c.traps.isEmpty && decide (c.clients.size ≤ 1) && c.flights.all fun f =>
    f.back == .intact && (c.clients.isEmpty || match f.caller with
      | .session .. => true
      | _ => false)

/-- While a client session is in jeopardy no acquire is out, and no leader that it asks has a live
session of the client. -/
def unclaimed (x : Client) (c : Cell) : Bool :=
  c.clients.all fun s => match s.phase with
    | .jeopardy _ =>
      (c.sent.all fun y => !acquires y.2.2.2) && c.flights.all fun f => !acquires f.request &&
        (c.serverAt? f.addr).all fun v => !c.cluster.leads v.node || (v.listed? x).isNone
    | _ => true
where
  acquires : Option Request → Bool
    | some (.acquireLock ..) => true
    | _ => false

theorem regular_of_plain (h : c.plain = true) : Regular x c := by
  simp only [plain, Bool.and_eq_true, decide_eq_true_eq, List.all_eq_true, beq_iff_eq,
    Bool.or_eq_true] at h
  obtain ⟨⟨ht, hsize⟩, hf⟩ := h
  refine ⟨fun f hm => (hf f hm).1, fun t hm => ?_, fun i j s u hi hj _ _ => ?_, fun hu e he q _ _ => ?_⟩
  · rw [List.isEmpty_iff.1 ht] at hm
    cases hm
  · have hi := (Array.getElem?_eq_some_iff.1 hi).1
    have hj := (Array.getElem?_eq_some_iff.1 hj).1
    omega
  · obtain ⟨f, hm, rfl⟩ := List.mem_map.1 he
    rcases (hf f hm).2 with hc | hc
    · refine absurd (fun i s hi => ?_) hu
      rw [Array.isEmpty_iff.1 hc] at hi
      cases hi
    · split at hc
      · rename_i i ask hcl
        exact ⟨i, ask, hcl⟩
      · cases hc

theorem covered_of_unclaimed (h : c.unclaimed x = true) : Covered x c := by
  have idle : ∀ (i : Nat) (s : ClientSession) (e : Nat), c.clients[i]? = some s →
      s.phase = .jeopardy e → (∀ y ∈ c.sent, unclaimed.acquires y.2.2.2 = false) ∧
        ∀ f ∈ c.flights, unclaimed.acquires f.request = false ∧
          ∀ v, c.serverAt? f.addr = some v → c.cluster.leads v.node = true →
            v.listed? x = none := by
    intro i s e hi hj
    have hs := Array.all_eq_true_iff_forall_mem.1 h s (Array.mem_of_getElem? hi)
    simp only [hj, Bool.and_eq_true, List.all_eq_true, Bool.not_eq_true', Option.all_eq_true,
      Bool.or_eq_true, Option.isNone_iff_eq_none] at hs
    refine ⟨hs.1, fun f hf => ⟨(hs.2 f hf).1, fun v hv hl => ?_⟩⟩
    rcases (hs.2 f hf).2 v hv with hn | hn
    · exact absurd (hl.symm.trans hn) (by decide)
    · exact hn
  refine ⟨fun i s e hi _ hj _ hacq => ?_, fun i s e hi _ hj _ _ _ _ f hf _ p m hq => ?_,
    fun i s e hi _ hj f hf _ d _ => ?_⟩
  · obtain ⟨id, a, p, m, hm⟩ := hacq
    cases (idle i s e hi hj).1 _ (mem_out.1 hm)
  · have hno := ((idle i s e hi hj).2 f hf).1
    rw [hq] at hno
    cases hno
  · refine Or.inr fun v hv hl e' he => ?_
    rw [((idle i s e hi hj).2 f hf).2 v hv hl] at he
    cases he

/-- Leases that a server extends by much. -/
def generous : LeaseConfig :=
  { length := ms 1000, extension := ms 10000, jeopardy := ms 3000, tick := ms 500,
    warning := ms 300, probe := ms 500 }

def twoNodes : Cell := start generous 0 [("a", "a:1", "a:1"), ("b", "b:1", "b:1")] (some "a")

/-- A client takes a lock at `a`, and `b` is elected. -/
def moved : List (CellStep × Nat) :=
  [(.call "c" (.connect "x" "x" none generous), 5),
   (.call "o" (.lock "x" (.openLock "M")), 5),
   (.call "a" (.lock "x" (.acquireLock "M" .exclusive)), 5),
   (.elect "b", 13)]

/-- A client goes from `a` to `b`, takes a lock there, and goes back to `a`, where it still has its
old session. -/
def movedBack : List (CellStep × Nat) :=
  [(.call "c" (.connect "x" "x" none generous), 6), (.elect "b", 18),
   (.call "o" (.lock "x" (.openLock "M")), 5),
   (.call "a" (.lock "x" (.acquireLock "M" .exclusive)), 5), (.elect "a", 13)]

/-- The client's only session comes out of jeopardy at the address, with the lock on its list. -/
def comesOut (x : Client) (a : Addr) (p : Path) (c c' : Cell) : Bool :=
  match c.clients[0]?, c'.clients[0]? with
  | some s, some s' =>
    (match s.phase with
      | .jeopardy _ => true
      | _ => false) && s.client == x && s'.client == x && s'.phase == .active && s'.server == a &&
      s'.held[p]? == some .exclusive
  | _, _ => false

/-- The lock is on the list of the client's live session at the address, or is not. -/
def listsAt (x : Client) (a : Addr) (p : Path) (c : Cell) : Bool :=
  (c.listed? x a).any fun d => d[p]? == some .exclusive

theorem resumes_of_comesOut {p : Path} {a : Addr} (h : comesOut x a p c c' = true) :
    ∃ s', Resumes x c c' s' ∧ s'.server = a ∧ s'.held[p]? = some .exclusive := by
  unfold comesOut at h
  split at h
  · rename_i s s' hs hs'
    simp only [Bool.and_eq_true, beq_iff_eq] at h
    obtain ⟨⟨⟨⟨⟨hj, hx⟩, hx'⟩, ha⟩, hsrv⟩, hp⟩ := h
    split at hj
    · rename_i e he
      exact ⟨s', ⟨hx', ⟨0, s, e, hs, hx, he, hs'⟩, ha⟩, hsrv, hp⟩
    · cases hj
  · cases h

theorem BearsOut.listsAt {p : Path} (h : c.BearsOut s) (hp : s.held[p]? = some .exclusive) :
    listsAt s.client s.server p c = true := by
  obtain ⟨v, j, t, hv, ht, hlive, hw⟩ := h
  have hl : c.listed? s.client s.server = some t.held :=
    listed?_eq_some_iff.2 ⟨v, hv, Server.listed?_of_live ht hlive⟩
  simp [Cell.listsAt, hl, hw p _ hp]

theorem bearsOut_of_moved : 0 < generous.length ∧ ∃ c c' s', CoveredPasses "x" twoNodes c ∧
    Pass "x" c c' ∧ Resumes "x" c c' s' ∧ s'.server = "b:1" ∧ s'.held["M"]? = some .exclusive ∧
    c'.BearsOut s' := by
  have hlen : 0 < generous.length := by decide
  have hrun : (script (fun c => c.plain && c.unclaimed "x") moved twoNodes).any (fun c =>
      c.next?.any fun c' => c'.plain && comesOut "x" "b:1" "M" c c') = true := by decide +kernel
  simp only [Option.any_eq_true, Bool.and_eq_true] at hrun
  obtain ⟨c, hc, c', hc', hplain, hout⟩ := hrun
  obtain ⟨s', hres, hsrv, hp⟩ := resumes_of_comesOut hout
  have hr : CoveredPasses "x" twoNodes c := by
    refine settledTurns_of_script (P := fun c s => s.Spares "x" c ∧ s.Leaves "x" c)
      (fun _ _ ht h => ?_) ?_ hc
    · rw [Bool.and_eq_true] at h
      exact ⟨⟨ht, regular_of_plain h.1⟩, covered_of_unclaimed h.2⟩
    · intro y hy d
      simp only [moved, List.mem_cons, List.not_mem_nil, or_false] at hy
      rcases hy with rfl | rfl | rfl | rfl
      exacts [⟨id, trivial⟩, ⟨id, trivial⟩, ⟨id, trivial⟩, ⟨trivial, trivial⟩]
  have hpass : Pass "x" c c' := ⟨.next hc', regular_of_plain hplain⟩
  exact ⟨hlen, c, c', s', hr, hpass, hres, hsrv, hp,
    (bearsOut_unless_uncovered 0 _ _ hlen).1 c c' s' hr hpass hres⟩

theorem not_bearsOut_of_movedBack : ∃ c c' s', Passes "x" twoNodes c ∧ Pass "x" c c' ∧
    Resumes "x" c c' s' ∧ ¬ c'.BearsOut s' := by
  have hrun : (script plain movedBack twoNodes).any (fun c => c.next?.any fun c' => c'.plain &&
      comesOut "x" "a:1" "M" c c' && !listsAt "x" "a:1" "M" c') = true := by decide +kernel
  simp only [Option.any_eq_true, Bool.and_eq_true, Bool.not_eq_true'] at hrun
  obtain ⟨c, hc, c', hc', ⟨hplain, hout⟩, hno⟩ := hrun
  obtain ⟨s', hres, hsrv, hp⟩ := resumes_of_comesOut hout
  refine ⟨c, c', s', ?_, ⟨.next hc', regular_of_plain hplain⟩, hres, fun hb => ?_⟩
  · refine settledTurns_of_script (fun _ _ ht h => ⟨ht, regular_of_plain h⟩) ?_ hc
    intro y hy d
    simp only [movedBack, List.mem_cons, List.not_mem_nil, or_false] at hy
    rcases hy with rfl | rfl | rfl | rfl | rfl
    exacts [⟨id, trivial⟩, ⟨trivial, trivial⟩, ⟨id, trivial⟩, ⟨id, trivial⟩, ⟨trivial, trivial⟩]
  · have hl := hb.listsAt hp
    rw [hres.client, hsrv] at hl
    cases hl.symm.trans hno

end Cell

end LockCell
