import LockCell.Proofs.Cell.Replies

/-
  LockCell.Proofs.Cell.Acts — a cell stays in order whatever is done from outside.

  Elections, outages, lost requests and replies, and the calls, programs and sessions of
  others all leave a cell in order for a client (`Safe.act`), as long as they leave the
  client's own sessions alone (`CellStep.Spares`). So does the passing of time
  (`Safe.setClock`).
-/

namespace LockCell

namespace Cell

variable {W : Client → Prop} {x : Client} {c c' : Cell}

/-! ## Peers hang up -/

theorem flights_finish (c : Cell) (id : Nat) (r : Result) :
    (c.finish id r).flights = c.flights := by
  unfold finish
  split <;> rfl

theorem mem_errands_searchOn (c : Cell) (id : Nat) (name : Option String) (next : Search.Next)
    {e : Errand} (he : e ∈ c.errands) : e ∈ (c.searchOn id name next).errands := by
  cases next with
  | ask s =>
    show e ∈ (c.flights ++ [_]).map Flight.errand
    rw [List.map_append]
    exact List.mem_append_left _ he
  | found s | failed s =>
    cases name with
    | some n =>
      unfold Cell.searchOn errands
      rw [flights_finish]
      exact he
    | none => exact he

/-- The end of one request leaves the others where they are. -/
theorem mem_errands_deliver (c : Cell) (f : Flight) (d : Delivery) {e : Errand} (he : e ∈ c.errands)
    (hne : e.id ≠ f.id) : e ∈ (c.deliver f d).errands := by
  have hdrop : e ∈ (c.dropFlight f.id).errands := by
    rw [errands_dropFlight]
    exact List.mem_filter.2 ⟨he, by simpa using hne⟩
  unfold Cell.deliver
  dsimp only
  split
  · unfold errands
    rw [flights_finish]
    exact hdrop
  · split
    · exact mem_errands_searchOn _ _ _ _ hdrop
    · exact hdrop
  · split
    · exact hdrop
    · exact hdrop
  · split <;> exact hdrop

/-- What stays when one peer hangs up stays when all at an address do. -/
theorem Safe.hangUp_induction {Q : Cell → Prop} (h : Safe x c) (hc : Q c)
    (hq : ∀ d f, Safe x d → Q d → f.errand ∈ d.errands → Q (d.deliver f .closed)) (a : Addr) :
    Safe x (c.hangUp a) ∧ Q (c.hangUp a) := by
  have all : ∀ (l : List Flight) (d : Cell), (l.map Flight.id).Nodup → Safe x d → Q d →
      (∀ f ∈ l, f.errand ∈ d.errands) → Safe x (l.foldl (fun c f => c.deliver f .closed) d) ∧
        Q (l.foldl (fun c f => c.deliver f .closed) d) := by
    intro l
    induction l with
    | nil => exact fun d _ hs hd _ => ⟨hs, hd⟩
    | cons f l ih =>
      intro d hl hs hd hm
      rw [List.map_cons, List.nodup_cons] at hl
      have hf := hm f List.mem_cons_self
      refine ih _ hl.2 (hs.deliver hf (backs_of_error (outcome_closed f))) (hq d f hs hd hf) ?_
      intro g hg
      refine mem_errands_deliver d f .closed (hm g (List.mem_cons_of_mem _ hg)) fun e => hl.1 ?_
      exact List.mem_map.2 ⟨g, hg, e⟩
  have hids : (c.flights.map Flight.id).Nodup := by
    have hids := h.ids
    unfold errands at hids
    rw [List.map_map] at hids
    exact hids
  exact all _ c (hids.sublist (List.filter_sublist.map _)) h hc fun f hf =>
    List.mem_map_of_mem (List.mem_filter.1 hf).1

theorem Safe.hangUp (h : Safe x c) (a : Addr) : Safe x (c.hangUp a) :=
  (h.hangUp_induction (Q := fun _ => True) trivial (fun _ _ _ _ _ => trivial) a).1

/-! ## Hosts, servers and the store -/

/-- What concerns neither the servers nor the traffic. -/
theorem Safe.of_eq (h : Safe x c) (hn : c'.now = c.now) (hh : c'.hosts = c.hosts)
    (hl : c'.lease = c.lease) (hv : c'.servers = c.servers) (hcl : c'.clients = c.clients)
    (hf : c'.flights = c.flights) (hm : c'.mail = c.mail) (hw : c'.waiters = c.waiters)
    (hs : c'.searches = c.searches) (hp : c'.programs = c.programs)
    (ht : ∀ t ∈ c'.traps, ∀ code body, t.mishap ≠ .reply code body) (hfr : c'.fresh = c.fresh) :
    Safe x c' := by
  obtain ⟨now, lease, _, _, servers, _, hosts, _, flights, _, clients, _, _, waiters, searches,
    programs, _, _, mail, fresh, _, _⟩ := c'
  cases hn
  cases hh
  cases hl
  cases hv
  cases hcl
  cases hf
  cases hm
  cases hw
  cases hs
  cases hp
  cases hfr
  exact ⟨h.kept, h.leased, h.ids, h.idLt, h.waiterLt, h.parked, h.tidy, h.sentLt, h.claims, ht,
    h.seeks.of_eq (stay_of_eq rfl) rfl rfl rfl rfl, h.awaits.of_eq rfl rfl rfl rfl rfl, h.owed⟩

/-- Servers are reached where they were, and owe what they owed. -/
theorem Safe.of_servers (h : Safe x c) (hosts : Dict Host) (servers : Array Server)
    (hh : ∀ (a : Addr) (host : Host), c.hosts[a]? = some host →
      ∃ host' : Host, hosts[a]? = some host' ∧ host'.server = host.server)
    (hv : ∀ (i : Nat) (v : Server), c.servers[i]? = some v →
      ∃ v' : Server, servers[i]? = some v' ∧ v'.sessions = v.sessions ∧ v'.registry = v.registry)
    (hk : Kept { c with hosts, servers }) (hl : Leased { c with hosts, servers }) :
    Safe x { c with hosts, servers } := by
  have seated : ∀ a i j y, c.SeatedAt a i j y → SeatedAt { c with hosts, servers } a i j y := by
    intro a i j y hu
    obtain ⟨host, v, ha, hi, hs, hj⟩ := hu
    obtain ⟨host', ha', e⟩ := hh a host ha
    obtain ⟨v', hs', hsess, -⟩ := hv i v hs
    refine ⟨host', v', ha', e.trans hi, hs', ?_⟩
    unfold Server.Seats at hj ⊢
    rw [hsess]
    exact hj
  have owed : ∀ a st l, c.Owed x a st l → Owed { c with hosts, servers } x a st l := by
    intro a st l hq
    obtain ⟨host, v, ha, hs, ho⟩ := hq
    obtain ⟨host', ha', e⟩ := hh a host ha
    obtain ⟨v', hs', hsess, hreg⟩ := hv host.server v hs
    refine ⟨host', v', ha', e ▸ hs', ?_⟩
    unfold Server.Owes Server.session? at ho ⊢
    rw [hsess, hreg]
    exact ho
  refine ⟨hk, hl, h.ids, h.idLt, h.waiterLt, ?_, h.tidy, h.sentLt, h.claims, h.honest,
    h.seeks.of_eq (stay_of_eq rfl) rfl rfl rfl rfl, h.awaits.of_eq rfl rfl rfl rfl rfl, ?_⟩
  · intro w hw e he hid
    obtain ⟨y, hy, hs⟩ := h.parked w hw e he hid
    exact ⟨y, hy, seated _ _ _ _ hs⟩
  · exact fun hl i s hi hx hc a st l hr => owed a st l (h.owed hl i s hi hx hc a st l hr)

theorem Safe.setUp (h : Safe x c) (a : Addr) (up : Bool) : Safe x (c.setUp a up) := by
  unfold Cell.setUp
  split
  · rename_i host ha
    refine h.of_servers (c.hosts.insert a { host with up }) c.servers ?_
      (fun i v hv => ⟨v, hv, rfl, rfl⟩) h.kept h.leased
    intro b host' hb
    simp only [Std.ExtTreeMap.getElem?_insert, Std.LawfulEqCmp.compare_eq_iff_eq]
    split
    · rename_i e
      subst e
      rw [ha] at hb
      cases hb
      exact ⟨_, rfl, rfl⟩
    · exact ⟨host', hb, rfl⟩
  · exact h

/-- The lock tables do not matter. -/
theorem Safe.setSlots (h : Safe x c) {i : Nat} {v : Server} (hv : c.servers[i]? = some v)
    (t : Slots) (k : Cluster) : Safe x (c.setServer i { v with slots := t } k) := by
  have hlt := (Array.getElem?_eq_some_iff.1 hv).1
  have get : ∀ (j : Nat), (c.servers.setIfInBounds i { v with slots := t })[j]? =
      if j = i then some { v with slots := t } else c.servers[j]? := by
    intro j
    simp only [Array.getElem?_setIfInBounds, hlt, if_true, eq_comm (a := i)]
  have h₁ : Safe x { c with servers := c.servers.setIfInBounds i { v with slots := t } } := by
    refine h.of_servers c.hosts _ (fun a host ha => ⟨host, ha, rfl⟩) ?_ ?_ ?_
    · intro j w hj
      rw [get]
      split
      · rename_i e
        subst e
        rw [hv] at hj
        cases hj
        exact ⟨_, rfl, rfl, rfl⟩
      · exact ⟨w, hj, rfl, rfl⟩
    · intro j w hj
      have hj : (c.servers.setIfInBounds i { v with slots := t })[j]? = some w := hj
      rw [get] at hj
      split at hj
      · cases hj
        exact (h.kept i v hv).slots t
      · exact h.kept j w hj
    · intro j w hj
      have hj : (c.servers.setIfInBounds i { v with slots := t })[j]? = some w := hj
      rw [get] at hj
      split at hj
      · cases hj
        exact h.leased i v hv
      · exact h.leased j w hj
  exact h₁.of_eq rfl rfl rfl rfl rfl rfl rfl rfl rfl rfl h.honest rfl

/-- A node comes in, at an address of its own. -/
theorem Safe.addNode (h : Safe x c) (n : Node) {a : Addr} (ha : a ∉ c.hosts) (listen : Addr) :
    Safe x (c.addNode n a listen) := by
  have get : ∀ (j : Nat), (c.servers.push { node := n, listen, lease := c.lease })[j]? =
      if j = c.servers.size then some { node := n, listen, lease := c.lease } else c.servers[j]? :=
    fun j => Array.getElem?_push
  have h₁ : Safe x { c with
      hosts := c.hosts.insert a ⟨c.servers.size, true⟩
      servers := c.servers.push { node := n, listen, lease := c.lease } } := by
    refine h.of_servers _ _ ?_ ?_ ?_ ?_
    · intro b host hb
      refine ⟨host, ?_, rfl⟩
      simp only [Std.ExtTreeMap.getElem?_insert, Std.LawfulEqCmp.compare_eq_iff_eq]
      rw [if_neg, hb]
      intro e
      obtain rfl := e
      exact ha (Std.ExtTreeMap.mem_iff_isSome_getElem?.2 (by rw [hb]; rfl))
    · intro j w hj
      have hlt := (Array.getElem?_eq_some_iff.1 hj).1
      exact ⟨w, by rw [get, if_neg (by omega), hj], rfl, rfl⟩
    · intro j w hj
      have hj : (c.servers.push { node := n, listen, lease := c.lease })[j]? = some w := hj
      rw [get] at hj
      split at hj
      · cases hj
        exact Server.kept_fresh n listen c.lease
      · exact h.kept j w hj
    · intro j w hj
      have hj : (c.servers.push { node := n, listen, lease := c.lease })[j]? = some w := hj
      rw [get] at hj
      split at hj
      · cases hj
        rfl
      · exact h.leased j w hj
  exact h₁.of_eq rfl rfl rfl rfl rfl rfl rfl rfl rfl rfl h.honest rfl

/-- Time passes. -/
theorem Safe.setClock (h : Safe x c) {t : Nat} (ht : c.now ≤ t) : Safe x (c.setClock t) := by
  have hc : Carries c (c.setClock t) := ⟨ht, rfl, h.kept, h.leased, fun _ _ _ _ hs => hs⟩
  refine h.of hc rfl (.refl _) (.refl _) (fun m hm _ ha => ⟨m, hm, ha⟩) (fun _ hw _ _ => hw)
    (fun _ hr => hr) (.refl _) h.honest (Nat.le_refl _) ?_
  intro _ i s _ _ a st l _ ho
  obtain ⟨host, v, hh, hv, ho⟩ := ho
  exact ⟨host, v, hh, hv, ho.mono (Nat.le_refl _) ht⟩

/-! ## What is done from outside -/

theorem Safe.abandonLock (h : Safe x c) (i id : Nat) : Safe x (c.abandonLock i id) := by
  unfold Cell.abandonLock
  split
  · rename_i s hi
    exact h.keeps hi (ClientSession.keeps_abandon (h.tidy i s hi) id) fun _ =>
      ClientSession.of_plays_abandon id
  · exact h

theorem Safe.abandon (h : Safe x c) (p : PendingCall) : Safe x (c.abandon p) := by
  have h₁ : Safe x { c with calls := c.calls.filter (·.id ≠ p.id) } :=
    h.of_eq rfl rfl rfl rfl rfl rfl rfl rfl rfl rfl h.honest rfl
  unfold Cell.abandon
  dsimp only
  split
  · exact h₁.fade (fades_dropWaiter _ _)
  · exact h₁.fade (fades_dropWaiter _ _)
  · exact h₁.fade (fades_cancel _ _)
  · exact (h₁.fade (fades_dropSearch _ _)).fade (fades_cancel _ _)
  · exact h₁.abandonLock _ _
  · exact h₁
  · have gone : ∀ {d : Cell}, Safe x d → Safe x
        { ((d.dropSearch p.id).cancel (.search p.id)).cancel (.program p.id) with
          programs := (((d.dropSearch p.id).cancel (.search p.id)).cancel
            (.program p.id)).programs.filter (·.id ≠ p.id) } := by
      intro d hd
      have hd := (hd.fade (fades_dropSearch d p.id)).fade (fades_cancel _ (.search p.id))
      exact (hd.fade (fades_cancel _ (.program p.id))).fade (fades_programs List.filter_sublist)
    split
    · exact gone (h₁.abandonLock _ _)
    · exact gone h₁

theorem Safe.abort (h : Safe x c) (tag : String) : Safe x (c.abort tag).2 := by
  unfold Cell.abort
  split
  · exact h
  · rename_i id _
    have h₁ : Safe x { c with tags := c.tags.erase tag } :=
      h.of_eq rfl rfl rfl rfl rfl rfl rfl rfl rfl rfl h.honest rfl
    dsimp only
    split
    · exact h₁
    · exact h₁.abandon _

theorem Safe.beginHttp (h : Safe x c) (id : Nat) {i : Nat} {v : Server}
    (hv : c.servers[i]? = some v) {m : Http.Message}
    (hc : ∀ q, Http.read m = .ok (.call q) → ¬ q.Claims x) : Safe x (c.beginHttp id i v m) := by
  unfold Cell.beginHttp
  split
  · exact h.fade (fades_finish _ _ _)
  · exact h.fade (fades_finish _ _ _)
  · rename_i q hq
    have hm : Server.Moves q.Claims c.now (v, c.cluster) (v.serve c.cluster c.now q).2 :=
      Server.moves_serve (h.kept i v hv) q
    revert hm
    rcases v.serve c.cluster c.now q with ⟨r | ⟨j, t⟩, v', k'⟩ <;> intro hm
    · exact (h.fades (fades_setServer hv hm) (hc q hq)).fade (fades_finish _ _ _)
    · exact (h.fades (fades_setServer hv hm) (hc q hq)).fade
        (fades_wait (w := ⟨i, j, t, .http id⟩) (fun _ e => by cases e))

theorem Safe.beginProgram (h : Safe x c) (tag : String) (args : List String) :
    Safe x (c.beginProgram tag args) := by
  have h₁ : Safe x (c.beginCall tag .program).2 :=
    h.fade (fades_beginCall _ _ _)
  unfold Cell.beginProgram
  dsimp only
  split
  · exact h₁.fade (fades_finish _ _ _)
  · rename_i o _
    have new : ∀ {id : Nat}, id < c.fresh → id ≠ c.fresh := fun h => Nat.ne_of_lt h
    let p : ProgramRun := ⟨c.fresh, (Program.start o.config o.command).1,
      (Program.start o.config o.command).2, none⟩
    have ha : Awaits x { (c.beginCall tag .program).2 with
        programs := (c.beginCall tag .program).2.programs ++ [p] } := by
      refine h₁.awaits.add (Nat.lt_succ_self c.fresh) ?_ ?_ ?_ ?_ rfl
      · exact fun q hq => new (h.awaits.idLt q hq)
      · exact fun r hr => new (h.seeks.searchLt r hr).1
      · exact fun hid => new (h.awaits.playLt _ hid) rfl
      · exact Program.stage_start _ _
    have h₂ : Safe x { (c.beginCall tag .program).2 with
        programs := (c.beginCall tag .program).2.programs ++ [p] } :=
      ⟨h₁.kept, h₁.leased, h₁.ids, h₁.idLt, h₁.waiterLt, h₁.parked, h₁.tidy, h₁.sentLt,
        h₁.claims, h₁.honest, h₁.seeks.of_eq (stay_of_eq rfl) rfl rfl rfl rfl, ha, h₁.owed⟩
    refine h₂.perform (p := p) (Nat.lt_succ_self c.fresh) ?_ ?_
    · intro q hq e
      rcases List.mem_append.1 hq with hq | hq
      · exact absurd e (new (h.awaits.idLt q hq))
      · rw [List.mem_singleton.1 hq]
        exact ⟨rfl, rfl⟩
    · intro _ _ _ e he hcl
      exact new (h.seeks.callerLt e he _ hcl) rfl

end Cell

/-- The step leaves the client's sessions alone, and everybody reachable where they were: no
keep-alive with claims of this client comes from outside, none of its sessions is refreshed or
ended by hand, nobody answers in a server's place, and every server stays where it is. Sleeping
is the passing of time. -/
def CellStep.Spares (x : Client) (c : Cell) : CellStep → Prop
  | .sleep _ | .restart _ => False
  | .addNode _ a _ => a ∉ c.hosts
  | .trap t => ∀ code body, t.mishap ≠ .reply code body
  | .call _ (.rpc _ q) => ∀ r, q = some r → ¬ r.Claims x
  | .call _ s => ¬ s.Claims x
  | .manager _ s => s ≠ .terminate x
  | .session h s => (s = .refresh ∨ s = .terminate) → ∀ i j v t, c.handles[h]? = some (i, j) →
      c.servers[i]? = some v → v.sessions[j]? = some t → t.client ≠ x
  | _ => True

namespace Cell

variable {x : Client} {c c' : Cell}

theorem client_of_client? {name : String} {k : Nat} {s : ClientSession}
    (h : c.client? name = some (k, s)) : c.clients[k]? = some s := by
  obtain ⟨j, -, h⟩ := Option.bind_eq_some_iff.1 h
  obtain ⟨t, ht, h⟩ := Option.bind_eq_some_iff.1 h
  cases h
  exact ht

theorem Safe.actCall (h : Safe x c) (tag : String) {s : CallStep}
    (hs : (CellStep.call tag s).Spares x c) : Safe x (c.actCall tag s).2 := by
  have begun : ∀ k, Safe x (c.beginCall tag k).2 := fun k =>
    h.fade (fades_beginCall _ _ _)
  cases s with
  | managerKeepAlive n y claimed =>
    simp only [Cell.actCall]
    split
    · exact h
    · rename_i i v hv
      have hv := server_of_node hv
      have hm : Server.Moves (CallStep.managerKeepAlive n y claimed).Claims c.now (v, c.cluster)
          (v.keepAlive c.cluster y claimed c.now).2 := by
        refine Server.moves_keepAlive (h.kept i v hv) fun hc => ?_
        obtain ⟨d, rfl⟩ := Option.isSome_iff_exists.1 hc
        rfl
      refine Safe.fade ?_ (fades_park _ _ _ (fun _ e => by cases e) _ _)
      exact (begun .direct).fades (fades_setServer (c := (c.beginCall tag .direct).2) hv hm) hs
  | sessionKeepAlive handle =>
    simp only [Cell.actCall]
    split
    · exact h
    · rename_i i j _
      split
      · exact h
      · rename_i v hv
        refine Safe.fade ?_ (fades_park _ _ _ (fun _ e => by cases e) _ _)
        exact (begun .direct).fades (W := fun _ => False)
          (fades_setServer (c := (c.beginCall tag .direct).2) hv (Server.moves_park j)) not_false
  | http n m =>
    simp only [Cell.actCall]
    split
    · exact h
    · rename_i i v hv
      have hv := server_of_node hv
      exact (begun .http).beginHttp _ hv fun q hq hc => hs ⟨q, hq, hc⟩
  | rpc addr q =>
    exact (begun .rpc).send (fun _ _ e => by cases e) (fun _ e => by cases e) addr hs
  | connect name client servers lease =>
    refine (begun .search).beginSearch (some name) _ (Nat.lt_succ_self c.fresh) ?_
      fun hn => absurd hn (Option.some_ne_none name)
    intro _ _ e he hcl
    exact absurd (h.seeks.callerLt e he _ hcl) (Nat.lt_irrefl _)
  | lock name op =>
    simp only [Cell.actCall]
    split
    · exact h
    · rename_i k s hk
      split
      · exact h
      · have hi := client_of_client? hk
        have hb := begun (.lock name k)
        exact hb.callClient hi op (Nat.lt_succ_self c.fresh) fun _ p hp _ =>
          Nat.ne_of_lt (h.awaits.idLt p hp)
  | awaitExpiry name =>
    simp only [Cell.actCall]
    split
    · exact h
    · exact begun _
  | program args => exact h.beginProgram tag args

theorem fades_actManager {W : Client → Prop} (hk : c.Kept) {i : Nat} {v : Server}
    (hv : c.servers[i]? = some v) (s : ManagerStep) (hw : ∀ y, s = .terminate y → W y) :
    Fades W c (c.actManager i v s).2 := by
  have hs : Shifts W c (c.actManager i v s).2 := by
    refine (shifts_actManager hk hv s).mono ?_
    intro z hx
    obtain ⟨y, hy, rfl⟩ := hx
    exact hw y hy
  revert hs
  cases s with
  | create y name =>
    simp only [actManager]
    split <;> intro hs
    · exact .refl c
    · exact .of_shifts hs rfl rfl rfl rfl rfl rfl rfl (Nat.le_refl _)
  | live y name =>
    simp only [actManager]
    split <;> intro hs
    · exact .refl c
    · exact .of_shifts hs rfl rfl rfl rfl rfl rfl rfl (Nat.le_refl _)
  | find y name =>
    simp only [actManager]
    split <;> intro hs
    · exact .refl c
    · exact .of_shifts hs rfl rfl rfl rfl rfl rfl rfl (Nat.le_refl _)
  | terminate y => exact fun hs => .of_shifts hs rfl rfl rfl rfl rfl rfl rfl (Nat.le_refl _)

theorem fades_actSession {i j : Nat} {v : Server} {t : Session} (hv : c.servers[i]? = some v)
    (ht : v.sessions[j]? = some t) (s : SessionStep) :
    Fades (fun y => (s = .refresh ∨ s = .terminate) ∧ t.client = y) c
      (c.actSession i j v t s).2 := by
  have hs := shifts_actSession hv ht s
  revert hs
  cases s with
  | openLock | acquire | release | delete | terminate =>
    exact fun hs => .of_shifts hs rfl rfl rfl rfl rfl rfl rfl (Nat.le_refl _)
  | refresh =>
    simp only [actSession]
    split <;> intro hs
    · exact .refl c
    · exact .of_shifts hs rfl rfl rfl rfl rfl rfl rfl (Nat.le_refl _)
  | info => exact fun _ => .refl c

theorem Safe.cluster (h : Safe x c) (k : Cluster) : Safe x { c with cluster := k } :=
  h.of_eq rfl rfl rfl rfl rfl rfl rfl rfl rfl rfl h.honest rfl

theorem Safe.actStore (h : Safe x c) (n : Node) (s : StoreStep) : Safe x (c.actStore n s).2 := by
  have write : ∀ r, Safe x (actStore.write c r).2 := by
    intro r
    cases r with
    | error e => exact h
    | ok k => exact h.cluster k
  cases s with
  | set | delete | join => exact write _
  | get | leads | leader => exact h

theorem Safe.actTable (h : Safe x c) {i : Nat} {v : Server} (hv : c.servers[i]? = some v)
    (s : TableStep) : Safe x (c.actTable i v s).2 := by
  cases s with
  | openLock | acquire | release | delete => exact h.setSlots hv _ _
  | record => exact h

theorem Safe.down (h : Safe x c) (a : Addr) : Safe x (c.down a) := (h.setUp a false).hangUp a

/-- Whatever is done that spares the client keeps the cell in order for it. -/
theorem Safe.act (h : Safe x c) {s : CellStep} (hs : s.Spares x c) : Safe x (c.act s).2 := by
  cases s with
  | sleep | restart => exact hs.elim
  | abort tag => exact h.abort tag
  | call tag s => exact h.actCall tag hs
  | elect | stepDown | follow => exact h.cluster _
  | addNode n a l => exact h.addNode n hs l
  | cluster => exact h
  | store n s =>
    simp only [Cell.act, onServer]
    split
    · exact h
    · exact h.actStore n s
  | table n s =>
    simp only [Cell.act, onServer]
    split
    · exact h
    · rename_i hv
      exact h.actTable (server_of_node hv) s
  | manager n s =>
    simp only [Cell.act, onServer]
    split
    · exact h
    · rename_i i v hv
      have hs : s ≠ .terminate x := hs
      refine h.fades (W := fun y => s = .terminate y) ?_ hs
      exact fades_actManager h.kept (server_of_node hv) s fun y hy => hy
  | session handle s =>
    simp only [Cell.act]
    split
    · exact h
    · rename_i i j hh
      split
      · exact h
      · rename_i v hv
        split
        · exact h
        · rename_i t ht
          refine h.fades (fades_actSession hv ht s) ?_
          intro he
          obtain ⟨hst, hx⟩ := he
          exact hs hst i j v t hh hv ht hx
  | latency | requests | printed =>
    exact h.of_eq rfl rfl rfl rfl rfl rfl rfl rfl rfl rfl h.honest rfl
  | down n =>
    simp only [Cell.act, onSeat]
    split
    · exact h
    · exact h.down _
  | up n =>
    simp only [Cell.act, onSeat]
    split
    · exact h
    · exact h.setUp _ true
  | crash n =>
    simp only [Cell.act, onSeat]
    split
    · exact h
    · refine Safe.down ?_ _
      split
      · exact h.cluster _
      · exact h
  | trap t =>
    refine h.of_eq rfl rfl rfl rfl rfl rfl rfl rfl rfl rfl ?_ rfl
    intro u hu
    rcases List.mem_append.1 hu with hu | hu
    · exact h.honest u hu
    · rw [List.mem_singleton.1 hu]
      exact hs
  | clearTraps =>
    exact h.of_eq rfl rfl rfl rfl rfl rfl rfl rfl rfl rfl (fun u hu => by cases hu) rfl
  | close name =>
    simp only [Cell.act]
    split
    · exact h
    · rename_i k s hk
      exact h.closeClient (client_of_client? hk)

end Cell

end LockCell
