import LockCell.Proofs.Cell.Turns
import LockCell.Proofs.Server.Orphans

/-
  LockCell.Proofs.Cell.Work — what the servers of a cell do in one turn.

  In a turn at most one thing is done at one server, over the store as it is then; after it
  callers of parked keep-alives may go, which leaves of the servers everything but the tickets
  as it was (`Idle`, `Works`). What happens by itself is a request that arrives, a look of a
  watch or an answer to a keep-alive (`works_next?`). A step from outside does what it says
  (`CellStep.Does`), or it sets the store or the leader and nothing is done at a server
  (`works_act`). Some steps reach the servers by requests only (`CellStep.Outer`). What a turn
  comes to at one server is told by `Turn.server`.
-/

namespace LockCell

namespace Server

/-- Some callers of keep-alives parked at the server have gone. -/
structure Deserted (v v' : Server) : Prop where
  frame : v' = { v with sessions := v'.sessions }
  size : v'.sessions.size = v.sessions.size
  session : ∀ (i : Nat) (s : Session), v.sessions[i]? = some s →
    ∃ l, v'.sessions[i]? = some { s with parked := l }

variable {v v' v'' : Server}

theorem Deserted.refl (v : Server) : v.Deserted v := ⟨rfl, rfl, fun _ s hs => ⟨s.parked, hs⟩⟩

theorem Deserted.trans (h : v.Deserted v') (h' : v'.Deserted v'') : v.Deserted v'' where
  frame := by rw [h'.frame, h.frame]
  size := h'.size.trans h.size
  session i s hs := by
    obtain ⟨l, hl⟩ := h.session i s hs
    obtain ⟨l', hl'⟩ := h'.session i _ hl
    exact ⟨l', hl'⟩

theorem deserted_abandon (v : Server) (i t : Nat) : v.Deserted (v.abandon i t) := by
  unfold abandon
  split
  · exact .refl v
  · rename_i s hs
    refine ⟨rfl, by simp [setSession], fun j u hu => ?_⟩
    rw [sessions_setSession hs]
    split
    · rename_i e
      subst e
      rw [hs] at hu
      cases hu
      exact ⟨_, rfl⟩
    · exact ⟨u.parked, hu⟩

theorem Ends.deserted {x : Client} {p : Path} (h : v.Ends v' x p) (hd : v'.Deserted v'') :
    v.Ends v'' x p := by
  obtain ⟨i, s, s', hi, hx, hl, hp, hi', he⟩ := h
  obtain ⟨l, hl'⟩ := hd.session i s' hi'
  exact ⟨i, s, _, hi, hx, hl, hp, hl', he⟩

/-- What comes of requests and of clocks. -/
def Act.Remote : Act → Prop
  | .request _ | .look _ | .answer _ => True
  | _ => False

end Server

namespace Cell

/-- Nothing is done at the servers, but callers may go. -/
structure Idle (c c' : Cell) : Prop where
  cluster : c'.cluster = c.cluster
  size : c'.servers.size = c.servers.size
  server : ∀ (i : Nat) (v : Server), c.servers[i]? = some v →
    ∃ v', c'.servers[i]? = some v' ∧ v.Deserted v'

/-- At most one thing is done at one server, one for which `A` holds. -/
inductive Works (A : Server.Act → Prop) (c c' : Cell) : Prop
  | idle : Idle c c' → Works A c c'
  | act {i : Nat} {v : Server} {a : Server.Act} : c.servers[i]? = some v → A a →
      Idle (c.setServer i (v.does c.cluster c.now a).1 (v.does c.cluster c.now a).2) c' →
      Works A c c'

variable {A : Server.Act → Prop} {c c' c'' : Cell}

namespace Idle

theorem of_eq (hs : c'.servers = c.servers) (hk : c'.cluster = c.cluster) : Idle c c' :=
  ⟨hk, by rw [hs], fun _ v hv => ⟨v, hs ▸ hv, .refl v⟩⟩

theorem refl (c : Cell) : Idle c c := of_eq rfl rfl

theorem trans (h : Idle c c') (h' : Idle c' c'') : Idle c c'' where
  cluster := h'.cluster.trans h.cluster
  size := h'.size.trans h.size
  server i v hv := by
    obtain ⟨w, hw, hd⟩ := h.server i v hv
    obtain ⟨u, hu, hd'⟩ := h'.server i w hw
    exact ⟨u, hu, hd.trans hd'⟩

/-- What does not touch the servers and the store may come first. -/
theorem after (h : Idle c' c'') (hs : c'.servers = c.servers) (hk : c'.cluster = c.cluster) :
    Idle c c'' := (of_eq hs hk).trans h

theorem foldl {α : Type} {f : Cell → α → Cell} (hf : ∀ c a, Idle c (f c a)) (l : List α)
    (c : Cell) : Idle c (l.foldl f c) := by
  induction l generalizing c with
  | nil => exact refl c
  | cons a l ih => exact (hf c a).trans (ih (f c a))

end Idle

namespace Works

theorem after {d : Cell} (h : Works A d c') (hn : d.now = c.now) (hs : d.servers = c.servers)
    (hk : d.cluster = c.cluster) : Works A c c' := by
  cases h with
  | idle h => exact .idle (h.after hs hk)
  | @act i v a hv ha h =>
    refine .act (hs ▸ hv) ha (h.after ?_ ?_)
    · simp only [setServer, hs, hk, hn]
    · simp only [setServer, hk, hn]

theorem mono {B : Server.Act → Prop} (hab : ∀ a, A a → B a) (h : Works A c c') :
    Works B c c' := by
  cases h with
  | idle h => exact .idle h
  | act hv ha h => exact .act hv (hab _ ha) h

theorem size (h : Works A c c') : c'.servers.size = c.servers.size := by
  cases h with
  | idle h => exact h.size
  | act _ _ h => exact h.size.trans (by simp [setServer])

/-- A server is deserted at most, or it has done something and is deserted then. -/
theorem server (h : Works A c c') {i : Nat} {v : Server} (hv : c.servers[i]? = some v) :
    ∃ v', c'.servers[i]? = some v' ∧
      (v.Deserted v' ∨ ∃ a, A a ∧ (v.does c.cluster c.now a).1.Deserted v') := by
  cases h with
  | idle h =>
    obtain ⟨v', hv', hd⟩ := h.server i v hv
    exact ⟨v', hv', Or.inl hd⟩
  | @act j w a hw ha h =>
    by_cases e : j = i
    · subst e
      rw [hv] at hw
      cases hw
      obtain ⟨v', hv', hd⟩ := h.server j _ (getElem?_setIfInBounds_self hv _)
      exact ⟨v', hv', Or.inr ⟨a, ha, hd⟩⟩
    · obtain ⟨v', hv', hd⟩ := h.server i v (by
        simpa [setServer, Array.getElem?_setIfInBounds, e] using hv)
      exact ⟨v', hv', Or.inl hd⟩

end Works

/-! ## What leaves the servers alone -/

theorem idle_finish (c : Cell) (id : Nat) (r : Result) : Idle c (c.finish id r) := by
  unfold finish
  split <;> exact .of_eq rfl rfl

theorem idle_dropWaiter (c : Cell) (h : Holder) : Idle c (c.dropWaiter h) := by
  unfold dropWaiter
  split
  · exact .refl c
  · rename_i w _
    dsimp only
    split
    · exact .of_eq rfl rfl
    · rename_i v hv
      refine ⟨rfl, by simp [setServer], fun i u hu => ?_⟩
      by_cases e : w.server = i
      · subst e
        rw [hv] at hu
        cases hu
        exact ⟨_, getElem?_setIfInBounds_self hv _, Server.deserted_abandon v _ _⟩
      · exact ⟨u, by simpa [setServer, Array.getElem?_setIfInBounds, e] using hu, .refl u⟩

theorem idle_dropFlight (c : Cell) (id : Nat) : Idle c (c.dropFlight id) :=
  (idle_dropWaiter _ _).after rfl rfl

theorem idle_cancel (c : Cell) (x : Caller) : Idle c (c.cancel x) :=
  .foldl (fun c (f : Flight) => idle_dropFlight c f.id) _ c

theorem idle_searchOn (c : Cell) (id : Nat) (name : Option String) (s : Search.Next) :
    Idle c (c.searchOn id name s) := by
  cases s with
  | ask s => exact .of_eq rfl rfl
  | found s | failed e =>
    cases name with
    | some n =>
      unfold searchOn
      exact (idle_finish _ _ _).after rfl rfl
    | none => exact .of_eq rfl rfl

theorem idle_perform (c : Cell) (p : ProgramRun) : Idle c (c.perform p) := by
  unfold perform
  split
  · exact idle_searchOn _ _ _ _
  · split <;> exact .of_eq rfl rfl
  · exact .of_eq rfl rfl
  · exact .refl c
  · exact .refl c
  · exact .refl c
  · refine .trans ?_ (idle_finish _ _ _)
    split <;> exact .of_eq rfl rfl

theorem idle_moveProgram (c : Cell) (p : ProgramRun) (m : Program.Move) :
    Idle c (c.moveProgram p m) := by
  unfold moveProgram
  exact (idle_perform _ _).after rfl rfl

theorem idle_openMail (c : Cell) (m : Mail) : Idle c (c.openMail m) := by
  unfold openMail
  split
  · exact .of_eq rfl rfl
  · exact idle_cancel _ _
  · split
    · exact .of_eq rfl rfl
    · exact idle_finish _ _ _
  · split
    · exact idle_moveProgram _ _ _
    · exact .refl c

theorem idle_deliver (c : Cell) (f : Flight) (d : Delivery) : Idle c (c.deliver f d) := by
  unfold deliver
  refine (idle_dropFlight c f.id).trans ?_
  dsimp only
  split
  · exact idle_finish _ _ _
  · split
    · exact idle_searchOn _ _ _ _
    · exact .refl _
  · split <;> exact .of_eq rfl rfl
  · split <;> exact .of_eq rfl rfl

theorem idle_release (c : Cell) (w : Waiter) (r : Except Error KeepAlive) :
    Idle c (c.release w r) := by
  have h₁ : Idle c { c with waiters := c.waiters.filter (·.holder ≠ w.holder) } := .of_eq rfl rfl
  unfold release
  dsimp only
  split
  · exact h₁.trans (idle_finish _ _ _)
  · exact h₁.trans (idle_finish _ _ _)
  · split
    · exact h₁.trans (idle_deliver _ _ _)
    · exact h₁

theorem idle_park (c : Cell) (i : Nat) (h : Handled KeepAlive) (x : Holder) (id : Nat)
    (r : Except Error KeepAlive → Result) : Idle c (c.park i h x id r) := by
  unfold park
  split
  · exact idle_finish _ _ _
  · exact .of_eq rfl rfl

theorem idle_beginProgram (c : Cell) (tag : String) (args : List String) :
    Idle c (c.beginProgram tag args) := by
  have h₁ : Idle c (c.beginCall tag .program).2 := .of_eq rfl rfl
  unfold beginProgram
  dsimp only
  split
  · exact h₁.trans (idle_finish _ _ _)
  · exact (idle_perform _ _).after rfl rfl

theorem idle_abandonLock (c : Cell) (i id : Nat) : Idle c (c.abandonLock i id) := by
  unfold abandonLock
  split <;> exact .of_eq rfl rfl

theorem idle_abandon (c : Cell) (p : PendingCall) : Idle c (c.abandon p) := by
  have h₁ : Idle c { c with calls := c.calls.filter (·.id ≠ p.id) } := .of_eq rfl rfl
  have search : ∀ d : Cell, Idle d ((d.dropSearch p.id).cancel (.search p.id)) := fun d =>
    (idle_cancel _ _).after rfl rfl
  unfold abandon
  dsimp only
  refine h₁.trans ?_
  split
  · exact idle_dropWaiter _ _
  · exact idle_dropWaiter _ _
  · exact idle_cancel _ _
  · exact search _
  · exact idle_abandonLock _ _ _
  · exact .refl _
  · have drop : ∀ d : Cell, Idle d
        { ((d.dropSearch p.id).cancel (.search p.id)).cancel (.program p.id) with
          programs := (((d.dropSearch p.id).cancel (.search p.id)).cancel
            (.program p.id)).programs.filter (·.id ≠ p.id) } := fun d =>
      ((search d).trans (idle_cancel _ (.program p.id))).trans (.of_eq rfl rfl)
    refine .trans ?_ (drop _)
    split
    · exact idle_abandonLock _ _ _
    · exact .refl _

theorem idle_abort (c : Cell) (tag : String) : Idle c (c.abort tag).2 := by
  unfold abort
  split
  · exact .refl c
  · dsimp only
    split
    · exact .of_eq rfl rfl
    · exact (idle_abandon _ _).after rfl rfl

theorem idle_down (c : Cell) (a : Addr) : Idle c (c.down a) := by
  have hu : Idle c (c.setUp a false) := by
    unfold setUp
    split <;> exact .of_eq rfl rfl
  exact hu.trans (.foldl (fun c (f : Flight) => idle_deliver c f .closed) _ _)

/-! ## What happens by itself -/

theorem works_reach (c : Cell) (f : Flight) :
    Works (fun a => ∃ q, f.request = some q ∧ a = .request q) c (c.reach f) := by
  unfold reach
  dsimp only
  split
  · exact .idle (idle_deliver _ _ _)
  · rename_i i v hs
    obtain ⟨_, -, -, -, hv⟩ := server_of_host hs
    split
    · exact .idle (idle_deliver _ _ _)
    · rename_i q hq
      refine .act (a := .request q) hv ⟨q, hq, rfl⟩ ?_
      simp only [Server.does]
      rcases v.serve c.cluster c.now q with ⟨r | ⟨j, t⟩, v', k'⟩
      · exact idle_deliver _ _ _
      · exact .of_eq rfl rfl

theorem works_arrive (c : Cell) (f : Flight) :
    Works (fun a => ∃ q, f.request = some q ∧ a = .request q) c (c.arrive f) := by
  unfold arrive
  split
  · exact works_reach c f
  · rename_i m traps _
    have idle : ∀ {d : Cell}, Idle { c with traps } d →
        Works (fun a => ∃ q, f.request = some q ∧ a = .request q) c d := fun h =>
      .idle (h.after rfl rfl)
    dsimp only
    cases m with
    | refuse | reset | drop | reply => exact idle (idle_deliver _ _ _)
    | dropAfter =>
      exact (works_reach { c with traps } { f with back := .lost }).after rfl rfl rfl
    | cutBody code =>
      exact (works_reach { c with traps } { f with back := .cut code }).after rfl rfl rfl
    | hang | delay => exact idle (.of_eq rfl rfl)

theorem works_flightStep? (h : c.flightStep? = some c') : Works Server.Act.Remote c c' := by
  have remote : ∀ {q : Option Request} (a : Server.Act),
      (∃ r, q = some r ∧ a = .request r) → a.Remote := by
    rintro q a ⟨r, -, rfl⟩
    trivial
  obtain ⟨f, -, h⟩ := List.exists_of_findSome?_eq_some h
  split at h
  · split at h
    · cases h
      exact (works_arrive c f).mono remote
    · cases h
  · split at h
    · cases h
      exact (works_reach c f).mono remote
    · cases h
  · cases h
  · cases h

theorem works_sessionStepAt? {i j : Nat} {v : Server} (hv : c.servers[i]? = some v)
    (h : c.sessionStepAt? i v j = some c') : Works Server.Act.Remote c c' := by
  unfold sessionStepAt? at h
  split at h
  · rename_i w k hl
    cases h
    refine .act (a := .look j) hv trivial ?_
    simp only [Server.does, hl, Option.getD_some]
    exact .refl _
  · split at h
    · cases h
    · rename_i t r w ha
      refine .act (a := .answer j) hv trivial ?_
      simp only [Server.does, ha]
      dsimp only at h
      split at h
      · cases h
        exact idle_release _ _ _
      · cases h
        exact .refl _

/-- What happens by itself at the servers comes of requests and of clocks. -/
theorem works_next? (h : c.next? = some c') : Works Server.Act.Remote c c' := by
  rcases next?_cases h with h | h | h | h | h | h
  · unfold mailStep? at h
    split at h
    · cases h
    · cases h
      exact .idle ((idle_openMail _ _).after rfl rfl)
  · obtain ⟨i, v, j, hv, h⟩ := exists_sessionStepAt? h
    exact works_sessionStepAt? hv h
  · exact works_flightStep? h
  · obtain ⟨i, -, h⟩ := List.exists_of_findSome?_eq_some h
    obtain ⟨s, -, h⟩ := Option.bind_eq_some_iff.1 h
    obtain ⟨st, -, h⟩ := Option.bind_eq_some_iff.1 h
    cases h
    exact .idle (.of_eq rfl rfl)
  · obtain ⟨p, -, h⟩ := List.exists_of_findSome?_eq_some h
    split at h
    · split at h
      · cases h
        exact .idle (idle_finish _ _ _)
      · cases h
    · cases h
  · obtain ⟨p, -, h⟩ := List.exists_of_findSome?_eq_some h
    split at h
    · split at h
      · cases h
        exact .idle (idle_moveProgram _ _ _)
      · cases h
    · split at h
      · cases h
        exact .idle (idle_moveProgram _ _ _)
      · cases h
    · cases h

end Cell

/-! ## What is done from outside -/

/-- The calls of a session, as they are done at its server. -/
def SessionStep.act (j : Nat) : SessionStep → Option Server.Act
  | .openLock p => some (.call j (.openLock p))
  | .acquire p m => some (.call j (.acquireLock p m))
  | .release p => some (.call j (.releaseLock p))
  | .delete p => some (.call j (.deleteLock p))
  | .refresh => some (.refresh j)
  | .terminate => some (.terminate j)
  | .info => none

/-- What a step does at a server, if it reaches one. -/
def CellStep.Does : CellStep → Server.Act → Prop
  | .call _ (.http _ m), a => ∃ q, Http.read m = .ok (.call q) ∧ a = .request q
  | .call _ (.managerKeepAlive _ x claimed), a => a = .keepAlive x claimed
  | .call _ (.sessionKeepAlive _), a => ∃ j, a = .park j
  | .manager _ (.create x _), a => a = .create x
  | .manager _ (.terminate x), a => a = .terminateClient x
  | .session _ s, a => ∃ j, s.act j = some a
  | _, _ => False

/-- The step reaches the servers by requests only; beside them there are elections, outages and
the doings of clients. -/
def CellStep.Outer : CellStep → Prop
  | .call _ (.managerKeepAlive ..) | .call _ (.sessionKeepAlive _) => False
  | .store .. | .table .. | .manager .. | .session .. | .addNode .. | .restart _ | .sleep _ => False
  | _ => True

theorem CellStep.Outer.ordinary {s : CellStep} (h : s.Outer) : s.Ordinary := by
  cases s with
  | table | addNode | restart | sleep => exact h
  | _ => trivial

theorem CellStep.Outer.remote {s : CellStep} (h : s.Outer) {a : Server.Act} (ha : s.Does a) :
    a.Remote := by
  cases s with
  | call tag s =>
    cases s with
    | http n m =>
      obtain ⟨q, -, rfl⟩ := ha
      trivial
    | managerKeepAlive | sessionKeepAlive => exact h.elim
    | _ => exact ha.elim
  | manager | session => exact h.elim
  | _ => exact ha.elim

namespace Cell

variable {c c' : Cell}

theorem Turn.ordinary (h : Turn (fun _ s => s.Outer) c c') : Turn (fun _ s => s.Ordinary) c c' :=
  h.mono fun _ _ => CellStep.Outer.ordinary

theorem works_actCall (c : Cell) (tag : String) (s : CallStep) :
    Works (CellStep.call tag s).Does c (c.actCall tag s).2 := by
  cases s with
  | managerKeepAlive n x claimed =>
    simp only [actCall]
    split
    · exact .idle (.refl c)
    · rename_i i v hs
      refine Works.after (d := (c.beginCall tag .direct).2) ?_ rfl rfl rfl
      exact .act (a := .keepAlive x claimed) (server_of_node hs) rfl (idle_park _ _ _ _ _ _)
  | sessionKeepAlive handle =>
    simp only [actCall]
    split
    · exact .idle (.refl c)
    · rename_i i j _
      split
      · exact .idle (.refl c)
      · rename_i v hv
        refine Works.after (d := (c.beginCall tag .direct).2) ?_ rfl rfl rfl
        exact .act (a := .park j) hv ⟨j, rfl⟩ (idle_park _ _ _ _ _ _)
  | http n m =>
    simp only [actCall]
    split
    · exact .idle (.refl c)
    · rename_i i v hs
      refine Works.after (d := (c.beginCall tag .http).2) ?_ rfl rfl rfl
      unfold beginHttp
      split
      · exact .idle (idle_finish _ _ _)
      · exact .idle (idle_finish _ _ _)
      · rename_i q hq
        refine .act (a := .request q) (c := (c.beginCall tag .http).2) (server_of_node hs)
          ⟨q, hq, rfl⟩ ?_
        simp only [Server.does]
        rcases v.serve (c.beginCall tag .http).2.cluster (c.beginCall tag .http).2.now q with
          ⟨r | ⟨j, t⟩, v', k'⟩
        · exact idle_finish _ _ _
        · exact .of_eq rfl rfl
  | rpc addr q => exact .idle (.of_eq rfl rfl)
  | connect name client servers lease =>
    exact .idle ((idle_searchOn (c.beginCall tag .search).2 _ _ _).after rfl rfl)
  | lock name op =>
    simp only [actCall]
    split
    · exact .idle (.refl c)
    · split <;> exact .idle (.of_eq rfl rfl)
  | awaitExpiry name =>
    simp only [actCall]
    split <;> exact .idle (.of_eq rfl rfl)
  | program args => exact .idle (idle_beginProgram c tag args)

theorem works_actManager (c : Cell) {n : Node} {i : Nat} {v : Server}
    (hv : c.servers[i]? = some v) (s : ManagerStep) :
    Works (CellStep.manager n s).Does c (c.actManager i v s).2 := by
  cases s with
  | create x h =>
    simp only [actManager]
    split
    · exact .idle (.refl c)
    · rename_i j w hw
      refine .act (a := .create x) hv rfl ?_
      simp only [Server.does, hw]
      exact .of_eq rfl rfl
  | live x h | find x h =>
    simp only [actManager]
    split <;> exact .idle (.of_eq rfl rfl)
  | terminate x => exact .act (a := .terminateClient x) hv rfl (.refl _)

theorem works_actSession (c : Cell) {handle : String} {i j : Nat} {v : Server} {s : Session}
    (hv : c.servers[i]? = some v) (hs : v.sessions[j]? = some s) (step : SessionStep) :
    Works (CellStep.session handle step).Does c (c.actSession i j v s step).2 := by
  have call : ∀ op, step.act j = some (.call j op) → Works (CellStep.session handle step).Does c
      (c.setServer i { v.setSession j (s.call v.store (v.locks c.cluster) op).2.1 with
        slots := (s.call v.store (v.locks c.cluster) op).2.2.slots }
        (s.call v.store (v.locks c.cluster) op).2.2.store) := fun op ho => by
    refine .act (a := .call j op) hv ⟨j, ho⟩ ?_
    simp only [Server.does, Server.onSession_of_some hs]
    exact .refl _
  cases step with
  | openLock p => exact call (.openLock p) rfl
  | acquire p m => exact call (.acquireLock p m) rfl
  | release p => exact call (.releaseLock p) rfl
  | delete p => exact call (.deleteLock p) rfl
  | refresh =>
    refine .act (a := .refresh j) hv ⟨j, rfl⟩ ?_
    simp only [Server.does, hs, actSession]
    cases s.refresh? c.now with
    | error e => exact .of_eq (setIfInBounds_self hv).symm rfl
    | ok t => exact .refl _
  | terminate => exact .act (a := .terminate j) hv ⟨j, rfl⟩ (.refl _)
  | info => exact .idle (.refl c)

/-- The store or the leader are set from outside; unless it is the store, who leads and who is
followed is all that changes. -/
def Set (c : Cell) (s : CellStep) (k : Cluster) : Prop :=
  (∃ n t, s = .store n t) ∨ k = { c.cluster with leader := k.leader, followed := k.followed }

theorem works_act (c : Cell) {s : CellStep} (hs : s.Ordinary) :
    Works s.Does c (c.act s).2 ∨ ∃ k, c.Set s k ∧ Idle { c with cluster := k } (c.act s).2 := by
  cases s with
  | sleep | table | addNode | restart => exact hs.elim
  | abort tag => exact Or.inl (.idle (idle_abort c tag))
  | call tag s => exact Or.inl (works_actCall c tag s)
  | elect | stepDown | follow => exact Or.inr ⟨_, Or.inr rfl, .refl _⟩
  | cluster | latency | requests | trap | clearTraps | printed =>
    exact Or.inl (.idle (.of_eq rfl rfl))
  | store n s =>
    refine Or.inr ⟨(c.act (.store n s)).2.cluster, Or.inl ⟨n, s, rfl⟩, .of_eq ?_ rfl⟩
    simp only [act, onServer]
    split
    · rfl
    · cases s <;> simp only [actStore, actStore.write] <;> (try split) <;> rfl
  | manager n s =>
    simp only [act, onServer]
    split
    · exact Or.inl (.idle (.refl c))
    · rename_i i v hv
      exact Or.inl (works_actManager c (server_of_node hv) s)
  | session x s =>
    simp only [act]
    split
    · exact Or.inl (.idle (.refl c))
    · split
      · exact Or.inl (.idle (.refl c))
      · rename_i i j _ _ v hv
        split
        · exact Or.inl (.idle (.refl c))
        · rename_i t ht
          exact Or.inl (works_actSession c hv ht s)
  | down n =>
    simp only [act, onSeat]
    split
    · exact Or.inl (.idle (.refl c))
    · exact Or.inl (.idle (idle_down c _))
  | up n =>
    simp only [act, onSeat]
    split
    · exact Or.inl (.idle (.refl c))
    · refine Or.inl (.idle ?_)
      simp only [reply, setUp]
      split <;> exact .of_eq rfl rfl
  | crash n =>
    simp only [act, onSeat]
    split
    · exact Or.inl (.idle (.refl c))
    · split
      · exact Or.inr ⟨c.cluster.stepDown, Or.inr rfl, idle_down { c with cluster := _ } _⟩
      · exact Or.inl (.idle (idle_down c _))
  | close name =>
    simp only [act]
    split <;> exact Or.inl (.idle (.of_eq rfl rfl))

/-- One turn: work at the servers that comes of the cell itself or of a step, or something is
set. -/
theorem works_turn {P : Cell → CellStep → Prop} (hp : ∀ c s, P c s → s.Ordinary)
    (ht : Turn P c c') :
    Works (fun a => a.Remote ∨ ∃ s, P c s ∧ s.Does a) c c' ∨
      ∃ s k, P c s ∧ c.Set s k ∧ Idle { c with cluster := k } c' := by
  cases ht with
  | @act s hs =>
    rcases works_act c (hp c s hs) with h | ⟨k, hk, hi⟩
    · exact Or.inl (h.mono fun a ha => Or.inr ⟨s, hs, ha⟩)
    · exact Or.inr ⟨s, k, hs, hk, hi⟩
  | next h => exact Or.inl ((works_next? h).mono fun a ha => Or.inl ha)
  | wait => exact Or.inl (.idle (.of_eq rfl rfl))

theorem Turn.size {P : Cell → CellStep → Prop} (hp : ∀ c s, P c s → s.Ordinary)
    (ht : Turn P c c') : c'.servers.size = c.servers.size := by
  rcases works_turn hp ht with h | ⟨_, _, -, -, h⟩
  · exact h.size
  · exact h.size

/-- What a turn comes to at one server. -/
theorem Turn.server {P : Cell → CellStep → Prop} (hp : ∀ c s, P c s → s.Ordinary)
    (ht : Turn P c c') {i : Nat} {v : Server} (hv : c.servers[i]? = some v) :
    ∃ v', c'.servers[i]? = some v' ∧ (v.Deserted v' ∨
      ∃ a, (a.Remote ∨ ∃ s, P c s ∧ s.Does a) ∧ (v.does c.cluster c.now a).1.Deserted v') := by
  rcases works_turn hp ht with h | ⟨_, _, -, -, h⟩
  · exact h.server hv
  · obtain ⟨v', hv', hd⟩ := h.server i v hv
    exact ⟨v', hv', Or.inl hd⟩

end Cell

end LockCell
