import LockCell.Proofs.Cell.Acts
import LockCell.Proofs.Client.Belief

/-
  LockCell.Proofs.Cell.Strangers — what others do in a cell leaves a client's locks alone.

  A server's list of a client's locks is touched by what comes in the client's name only. So
  whatever else happens is calm for the client (`Calm`): its own sessions take no step and send
  nothing, no server has more than before on its list, none forgets that it knows the client,
  and what is owed stays owed. That goes for all that is done by and for others: searches,
  programs, requests and their answers, outages, elections.
-/

namespace LockCell

theorem Request.not_claims_of_sender {q : Request} {x : Client} (h : q.sender? ≠ some x) :
    ¬ q.Claims x := by
  intro hc
  cases q with
  | keepAlive y d =>
    cases d with
    | none => exact hc
    | some d => exact h (congrArg some hc)
  | initSession | openLock | deleteLock | acquireLock | releaseLock | join => exact hc

/-- A name stands for a session for ever. -/
theorem Server.Move.registry {W : Client → Prop} {now : Nat} {v w : Server × Cluster} {x : Client}
    (hm : Server.Move W now v w) (h : x ∈ v.1.registry) : x ∈ w.1.registry := by
  cases hm with
  | begin y => exact Dict.mem_insert_iff.2 (Or.inr h)
  | tend | refresh | members => exact h
  | call op hi =>
    rw [Server.onSession_of_some hi]
    exact h
  | expire hi | terminate _ hi =>
    unfold Server.terminate
    rw [Server.onSession_of_some hi]
    exact h

theorem Server.Moves.registry {W : Client → Prop} {now : Nat} {v w : Server × Cluster} {x : Client}
    (hm : Server.Moves W now v w) (h : x ∈ v.1.registry) : x ∈ w.1.registry := by
  induction hm with
  | refl => exact h
  | tail _ hm ih => exact hm.registry ih

theorem Server.Owes.of_eq {v w : Server} {x : Client} {st l now : Nat} (h : v.Owes x st l now)
    (hs : w.sessions = v.sessions) (hr : w.registry = v.registry) : w.Owes x st l now := by
  unfold Server.Owes Server.session? at h ⊢
  rw [hs, hr]
  exact h

theorem Server.listed?_of_eq {v w : Server} (hs : w.sessions = v.sessions)
    (hr : w.registry = v.registry) (x : Client) : w.listed? x = v.listed? x := by
  unfold Server.listed? Server.liveSession Server.session?
  rw [hs, hr]

namespace Cell

variable {W : Client → Prop} {x : Client} {c c' c'' : Cell} {a : Addr} {d : Dict Mode}

/-- The server that answers at an address. -/
def serverAt? (c : Cell) (a : Addr) : Option Server :=
  c.hosts[a]?.bind fun h => c.servers[h.server]?

/-- The list of the client's live session at the server that answers at the address. -/
def listed? (c : Cell) (x : Client) (a : Addr) : Option (Dict Mode) :=
  (c.serverAt? a).bind fun v => v.listed? x

/-- The server that answers at the address has, or had, a session of the client. -/
def Knows (c : Cell) (x : Client) (a : Addr) : Prop := ∃ v, c.serverAt? a = some v ∧ x ∈ v.registry

theorem serverAt?_eq_some_iff {v : Server} : c.serverAt? a = some v ↔
    ∃ h, c.hosts[a]? = some h ∧ c.servers[h.server]? = some v :=
  Option.bind_eq_some_iff

theorem listed?_eq_some_iff : c.listed? x a = some d ↔
    ∃ v, c.serverAt? a = some v ∧ v.listed? x = some d :=
  Option.bind_eq_some_iff

theorem owed_iff {st l : Nat} :
    c.Owed x a st l ↔ ∃ v, c.serverAt? a = some v ∧ v.Owes x st l c.now := by
  constructor
  · rintro ⟨h, v, hh, hv, ho⟩
    exact ⟨v, serverAt?_eq_some_iff.2 ⟨h, hh, hv⟩, ho⟩
  · rintro ⟨v, hv, ho⟩
    obtain ⟨h, hh, hv⟩ := serverAt?_eq_some_iff.1 hv
    exact ⟨h, v, hh, hv, ho⟩

/-- Nothing is done in the client's name. -/
structure Calm (x : Client) (c c' : Cell) : Prop where
  now : c'.now = c.now
  kept : c.Kept → c'.Kept
  clients : ∀ (i : Nat) (s : ClientSession), s.client = x →
    (c'.clients[i]? = some s ↔ c.clients[i]? = some s)
  out : ∀ (i : Nat) (s : ClientSession), c'.clients[i]? = some s → s.client = x →
    (c'.out i).Sublist (c.out i)
  listed : c.Kept → ∀ a d, c'.listed? x a = some d → c.listed? x a = some d
  knows : ∀ a, c.Knows x a → c'.Knows x a
  owed : c.Kept → ∀ a l, c.Owed x a c.now l → c'.Owed x a c.now l

namespace Calm

theorem trans (h : Calm x c c') (h' : Calm x c' c'') : Calm x c c'' where
  now := h'.now.trans h.now
  kept hk := h'.kept (h.kept hk)
  clients i s hx := (h'.clients i s hx).trans (h.clients i s hx)
  out i s hi hx := (h'.out i s hi hx).trans (h.out i s ((h'.clients i s hx).1 hi) hx)
  listed hk a d hl := h.listed hk a d (h'.listed (h.kept hk) a d hl)
  knows a hk := h'.knows a (h.knows a hk)
  owed hk a l ho := by
    have ho := h.owed hk a l ho
    rw [← h.now] at ho ⊢
    exact h'.owed (h.kept hk) a l ho

/-- The servers stay at their addresses with their sessions, and one that is new there has none
of the client. -/
theorem of_serverAt? (hn : c'.now = c.now) (hk : c.Kept → c'.Kept)
    (hc : ∀ (i : Nat) (s : ClientSession), s.client = x →
      (c'.clients[i]? = some s ↔ c.clients[i]? = some s))
    (ho : ∀ (i : Nat) (s : ClientSession), c'.clients[i]? = some s → s.client = x →
      (c'.out i).Sublist (c.out i))
    (hs : ∀ a v, c.serverAt? a = some v → ∃ w, c'.serverAt? a = some w ∧
      w.sessions = v.sessions ∧ w.registry = v.registry)
    (hs' : ∀ a w, c'.serverAt? a = some w → w.registry[x]? = none ∨ ∃ v, c.serverAt? a = some v) :
    Calm x c c' := by
  refine ⟨hn, hk, hc, ho, fun _ a d hl => ?_, fun a hkn => ?_, fun _ a l how => ?_⟩
  · obtain ⟨w, hw, hl⟩ := listed?_eq_some_iff.1 hl
    rcases hs' a w hw with hnone | ⟨v, hv⟩
    · obtain ⟨i, s, hi, -⟩ := Server.listed?_eq_some_iff.1 hl
      rw [(Server.session?_eq_some_iff.1 hi).1] at hnone
      cases hnone
    · obtain ⟨w', hw', hsess, hreg⟩ := hs a v hv
      rw [hw] at hw'
      obtain rfl := Option.some.inj hw'
      exact listed?_eq_some_iff.2 ⟨v, hv, Server.listed?_of_eq hsess hreg x ▸ hl⟩
  · obtain ⟨v, hv, hr⟩ := hkn
    obtain ⟨w, hw, -, hreg⟩ := hs a v hv
    exact ⟨w, hw, hreg ▸ hr⟩
  · obtain ⟨v, hv, how⟩ := owed_iff.1 how
    obtain ⟨w, hw, hsess, hreg⟩ := hs a v hv
    refine owed_iff.2 ⟨w, hw, ?_⟩
    rw [hn]
    exact Server.Owes.of_eq how hsess hreg

theorem of_eq (hn : c'.now = c.now) (hh : c'.hosts = c.hosts) (hs : c'.servers = c.servers)
    (hc : c'.clients = c.clients) (ho : ∀ i, (c'.out i).Sublist (c.out i)) : Calm x c c' := by
  have same : ∀ a, c'.serverAt? a = c.serverAt? a := by
    intro a
    unfold serverAt?
    rw [hh, hs]
  refine of_serverAt? hn (fun hk i v hv => hk i v (hs ▸ hv)) (fun i s _ => by rw [hc])
    (fun i _ _ _ => ho i) (fun a v hv => ⟨v, (same a).trans hv, rfl, rfl⟩) fun a w hw => ?_
  exact Or.inr ⟨w, (same a).symm.trans hw⟩

theorem refl (c : Cell) : Calm x c c := of_eq rfl rfl rfl rfl fun _ => .refl _

theorem foldl {α : Type} {f : Cell → α → Cell} (hf : ∀ c a, Calm x c (f c a)) (l : List α)
    (c : Cell) : Calm x c (l.foldl f c) := by
  induction l generalizing c with
  | nil => exact refl c
  | cons a l ih => exact (hf c a).trans (ih (f c a))

end Calm

/-! ## Servers -/

theorem serverAt?_setServer_self {host : Host} {v : Server} (hh : c.hosts[a]? = some host)
    (hv : c.servers[host.server]? = some v) (w : Server) (k : Cluster) :
    (c.setServer host.server w k).serverAt? a = some w :=
  serverAt?_eq_some_iff.2 ⟨host, hh, getElem?_setIfInBounds_self hv w⟩

/-- The server that is set answers where the old one did. -/
theorem serverAt?_setServer {i : Nat} {v : Server} (hv : c.servers[i]? = some v) (w : Server)
    (k : Cluster) (a : Addr) : (c.serverAt? a = some v ∧ (c.setServer i w k).serverAt? a = some w) ∨
      (c.setServer i w k).serverAt? a = c.serverAt? a := by
  cases hh : c.hosts[a]? with
  | none => exact Or.inr (by simp [serverAt?, setServer, hh])
  | some host =>
    by_cases e : i = host.server
    · subst e
      exact Or.inl ⟨serverAt?_eq_some_iff.2 ⟨host, hh, hv⟩, serverAt?_setServer_self hh hv w k⟩
    · exact Or.inr (by simp [serverAt?, setServer, hh, e])

theorem Knows.setServer {b : Addr} {i : Nat} {v v' : Server} {k' : Cluster} (h : c.Knows x b)
    (hv : c.servers[i]? = some v) (hm : Server.Moves W c.now (v, c.cluster) (v', k')) :
    (c.setServer i v' k').Knows x b := by
  obtain ⟨w, hw, hreg⟩ := h
  rcases serverAt?_setServer hv v' k' b with ⟨ha, ha'⟩ | ha'
  · rw [ha] at hw
    obtain rfl := Option.some.inj hw
    exact ⟨v', ha', Server.Moves.registry hm hreg⟩
  · exact ⟨w, ha'.trans hw, hreg⟩

/-- A server works for others. -/
theorem calm_setServer {i : Nat} {v v' : Server} {k' : Cluster} (hv : c.servers[i]? = some v)
    (hm : Server.Moves W c.now (v, c.cluster) (v', k')) (hw : ¬ W x)
    (hr : c.Kept → Server.Rests x v v') : Calm x c (c.setServer i v' k') := by
  have hs : Shifts W c (c.setServer i v' k') := shifts_setServer hv hm
  refine ⟨rfl, hs.kept, fun _ _ _ => .rfl, fun _ _ _ _ => .refl _, fun hk a d hl => ?_,
    fun a hkn => hkn.setServer hv hm, fun hk a l ho => hs.owed hk hw (Nat.le_refl _) ho⟩
  obtain ⟨w, hw, hl⟩ := listed?_eq_some_iff.1 hl
  rcases serverAt?_setServer hv v' k' a with ⟨ha, ha'⟩ | ha'
  · rw [ha'] at hw
    obtain rfl := Option.some.inj hw
    exact listed?_eq_some_iff.2 ⟨v, ha, hr hk d hl⟩
  · exact listed?_eq_some_iff.2 ⟨w, ha'.symm.trans hw, hl⟩

/-- Something is done at a server in nobody's name, or in another client's. -/
theorem calm_does {i : Nat} {v : Server} (hk : c.Kept) (hv : c.servers[i]? = some v)
    {a : Server.Act} (ha : a.sender? ≠ some x) (hh : ¬ a.Hits v x)
    (hc : ∀ j op, a = .call j op → ∀ t, v.session? x ≠ some (j, t)) :
    Calm x c (c.setServer i (v.does c.cluster c.now a).1 (v.does c.cluster c.now a).2) :=
  calm_setServer hv (Server.moves_does_hits (hk i v hv) c.now a) hh fun _ =>
    Server.rests_does (hk i v hv) ha hc

/-- Something is done at a server in nobody's name. -/
theorem calm_aside {i : Nat} {v : Server} (hk : c.Kept) (hv : c.servers[i]? = some v)
    {a : Server.Act} (ha : a.sender? = none) (hc : ∀ j op, a ≠ .call j op) (hh : ¬ a.Hits v x) :
    Calm x c (c.setServer i (v.does c.cluster c.now a).1 (v.does c.cluster c.now a).2) := by
  refine calm_does hk hv (fun e => ?_) hh fun j op e => absurd e (hc j op)
  cases ha.symm.trans e

/-- The lock tables do not matter. -/
theorem calm_setSlots {i : Nat} {v : Server} (hv : c.servers[i]? = some v) (t : Slots)
    (k : Cluster) : Calm x c (c.setServer i { v with slots := t } k) := by
  refine .of_serverAt? rfl (fun hk j w hj => ?_) (fun _ _ _ => .rfl) (fun _ _ _ _ => .refl _)
    (fun a w hw => ?_) fun a w hw => ?_
  · have hlt := (Array.getElem?_eq_some_iff.1 hv).1
    simp only [setServer, Array.getElem?_setIfInBounds, hlt, if_true] at hj
    split at hj
    · cases hj
      exact (hk i v hv).slots t
    · exact hk j w hj
  · rcases serverAt?_setServer hv { v with slots := t } k a with ⟨ha, ha'⟩ | ha'
    · rw [hw] at ha
      cases ha
      exact ⟨_, ha', rfl, rfl⟩
    · exact ⟨w, ha'.trans hw, rfl, rfl⟩
  · rcases serverAt?_setServer hv { v with slots := t } k a with ⟨ha, -⟩ | ha'
    · exact Or.inr ⟨v, ha⟩
    · exact Or.inr ⟨w, ha'.symm.trans hw⟩

theorem calm_setUp (c : Cell) (a : Addr) (up : Bool) : Calm x c (c.setUp a up) := by
  unfold setUp
  split
  · rename_i host ha
    have same : ∀ b, Cell.serverAt? { c with hosts := c.hosts.insert a { host with up } } b =
        c.serverAt? b := by
      intro b
      unfold serverAt?
      simp only [Std.ExtTreeMap.getElem?_insert, Std.LawfulEqCmp.compare_eq_iff_eq]
      split
      · rename_i e
        subst e
        rw [ha]
        rfl
      · rfl
    refine .of_serverAt? rfl (fun hk => hk) (fun _ _ _ => .rfl) (fun _ _ _ _ => .refl _)
      (fun b v hv => ⟨v, (same b).trans hv, rfl, rfl⟩) fun b w hw => ?_
    exact Or.inr ⟨w, (same b).symm.trans hw⟩
  · exact .refl c

/-- A node comes in, at an address of its own. -/
theorem calm_addNode (c : Cell) (n : Node) {a : Addr} (ha : a ∉ c.hosts) (listen : Addr) :
    Calm x c (c.addNode n a listen) := by
  have get : ∀ j, (c.addNode n a listen).servers[j]? = if j = c.servers.size then
      some { node := n, listen, lease := c.lease } else c.servers[j]? :=
    fun j => Array.getElem?_push
  refine .of_serverAt? rfl (fun hk j w hj => ?_) (fun _ _ _ => .rfl) (fun _ _ _ _ => .refl _)
    (fun b v hv => ?_) fun b w hw => ?_
  · rw [get] at hj
    split at hj
    · cases hj
      exact Server.kept_fresh n listen c.lease
    · exact hk j w hj
  · obtain ⟨host, hh, hs⟩ := serverAt?_eq_some_iff.1 hv
    have hlt := (Array.getElem?_eq_some_iff.1 hs).1
    refine ⟨v, serverAt?_eq_some_iff.2 ⟨host, ?_, by rw [get, if_neg (by omega), hs]⟩, rfl, rfl⟩
    simp only [addNode, Std.ExtTreeMap.getElem?_insert, Std.LawfulEqCmp.compare_eq_iff_eq]
    rw [if_neg, hh]
    rintro rfl
    exact ha (Dict.mem_of_getElem? hh)
  · obtain ⟨host, hh, hs⟩ := serverAt?_eq_some_iff.1 hw
    rw [get] at hs
    split at hs
    · cases hs
      exact Or.inl (by simp)
    · rename_i hne
      right
      simp only [addNode, Std.ExtTreeMap.getElem?_insert, Std.LawfulEqCmp.compare_eq_iff_eq] at hh
      split at hh
      · cases hh
        exact absurd rfl hne
      · exact ⟨w, serverAt?_eq_some_iff.2 ⟨host, hh, hs⟩⟩

theorem calm_dropWaiter (c : Cell) (h : Holder) : Calm x c (c.dropWaiter h) := by
  unfold dropWaiter
  split
  · exact .refl c
  · rename_i w _
    have h₁ : Calm x c { c with waiters := c.waiters.filter (·.holder ≠ h) } :=
      .of_eq rfl rfl rfl rfl fun _ => .refl _
    dsimp only
    split
    · exact h₁
    · rename_i v hv
      refine h₁.trans (calm_setServer (W := fun _ => False) hv
        (Server.moves_abandon w.session w.ticket) not_false fun hk => ?_)
      have hr : Server.Rests x v (v.does c.cluster c.now (.abandon w.session w.ticket)).1 :=
        Server.rests_does (hk _ v hv) nofun nofun
      exact hr

theorem calm_dropFlight (c : Cell) (id : Nat) : Calm x c (c.dropFlight id) := by
  have h₁ : Calm x c { c with flights := c.flights.filter (·.id ≠ id) } := by
    refine .of_eq rfl rfl rfl rfl fun i => ?_
    have hs : (({ c with flights := c.flights.filter (·.id ≠ id) } : Cell).errands).Sublist
        c.errands := List.filter_sublist.map _
    exact ((hs.filterMap _).append (.refl _)).filterMap _
  exact h₁.trans (calm_dropWaiter _ _)

theorem calm_cancel (c : Cell) (y : Caller) : Calm x c (c.cancel y) :=
  .foldl (fun c (f : Flight) => calm_dropFlight c f.id) _ c

/-! ## Calls, mail and requests -/

theorem calm_finish (c : Cell) (id : Nat) (r : Result) : Calm x c (c.finish id r) := by
  unfold finish
  split <;> exact .of_eq rfl rfl rfl rfl fun _ => .refl _

theorem calm_event (c : Cell) (id : Nat) (e : Event) :
    Calm x c { c with mail := c.mail ++ [.event id e] } := by
  refine .of_eq rfl rfl rfl rfl fun i => ?_
  have hs : ({ c with mail := c.mail ++ [.event id e] } : Cell).sent = c.sent := by
    unfold sent
    rw [List.filterMap_append]
    exact congrArg _ (List.append_nil _)
  unfold out
  rw [hs]

theorem calm_programs (c : Cell) (l : List ProgramRun) : Calm x c { c with programs := l } :=
  .of_eq rfl rfl rfl rfl fun _ => .refl _

theorem calm_calls (c : Cell) (l : List PendingCall) (d : Dict Nat) (n : Nat) :
    Calm x c { c with calls := l, tags := d, fresh := n } :=
  .of_eq rfl rfl rfl rfl fun _ => .refl _

theorem calm_waiters (c : Cell) (l : List Waiter) : Calm x c { c with waiters := l } :=
  .of_eq rfl rfl rfl rfl fun _ => .refl _

/-- Somebody sends who is no client session. -/
theorem calm_send (c : Cell) {y : Caller} (hy : ∀ i ask, y ≠ .session i ask) (a : Addr)
    (q : Option Request) : Calm x c (c.send y a q) := by
  refine .of_eq rfl rfl rfl rfl fun i => ?_
  have hs : (c.send y a q).sent = c.sent := by
    have hnone : Errand.sent? ⟨c.fresh, y, a, q⟩ = none := by
      unfold Errand.sent?
      split
      · rename_i i ask e
        exact absurd e (hy i ask)
      · rfl
    unfold sent errands send
    simp [List.filterMap_append, Flight.errand, hnone]
  unfold out
  rw [hs]

/-- What is in the mail is sent. -/
theorem calm_post {i : Nat} {ask : Ask} {q : Request} {rest : List Mail}
    (hm : c.mail = .effect i (.send ask a q) :: rest) :
    Calm x c (({ c with mail := rest } : Cell).send (.session i ask) a (some q)) := by
  refine .of_eq rfl rfl rfl rfl fun j => ?_
  have hs : (({ c with mail := rest } : Cell).send (.session i ask) a (some q)).sent = c.sent := by
    unfold sent errands send
    rw [hm]
    simp [List.filterMap_append, Flight.errand, Errand.sent?, Mail.sent?]
  unfold out
  rw [hs]

/-! ## Other clients -/

theorem calm_setClient {i : Nat} {s : ClientSession} (hi : c.clients[i]? = some s)
    (hx : s.client ≠ x) {st : ClientSession.Step} (hc : st.1.client = s.client) :
    Calm x c (c.setClient i st) := by
  have hget := clients_setClient hi st
  refine .of_serverAt? rfl (fun hk => hk) (fun j t ht => ?_) (fun j t hj ht => ?_)
    (fun _ v hv => ⟨v, hv, rfl, rfl⟩) fun _ w hw => Or.inr ⟨w, hw⟩
  · rw [hget]
    split
    · rename_i e
      subst e
      rw [hi, Option.some.injEq, Option.some.injEq]
      constructor <;> intro e <;> subst e
      · exact absurd (hc.symm.trans ht) hx
      · exact absurd ht hx
    · exact .rfl
  · rw [hget] at hj
    split at hj
    · cases hj
      exact absurd (hc.symm.trans ht) hx
    · rw [out_setClient_other c ‹_›]

/-- A client session begins. -/
theorem calm_begin (c : Cell) {n : ClientSession} (hn : n.client ≠ x) :
    Calm x c { c with clients := c.clients.push n } := by
  refine .of_serverAt? rfl (fun hk => hk) (fun j t ht => ?_) (fun _ _ _ _ => .refl _)
    (fun _ v hv => ⟨v, hv, rfl, rfl⟩) fun _ w hw => Or.inr ⟨w, hw⟩
  show (c.clients.push n)[j]? = some t ↔ _
  rw [Array.getElem?_push]
  split
  · rename_i e
    subst e
    constructor <;> intro e
    · cases e
      exact absurd ht hn
    · have hlt := (Array.getElem?_eq_some_iff.1 e).1
      omega
  · exact .rfl

/-- The cell with the client session that a search has found a server for. -/
def born (c : Cell) (id : Nat) (s : Search) : Cell :=
  { c.dropSearch id with clients := c.clients.push (.begin s.config s.current s.begun c.now) }

/-- Whoever looked for it is told. -/
theorem calm_found (c : Cell) (id : Nat) (name : Option String) (s : Search) :
    Calm x (c.born id s) (c.searchOn id name (.found s)) := by
  cases name with
  | some n =>
    unfold searchOn
    refine .trans ?_ (calm_finish _ _ _)
    exact .of_eq rfl rfl rfl rfl fun _ => .refl _
  | none =>
    have hp := calm_programs (x := x) (c.born id s) (c.programs.map fun p =>
      if p.id = id then { p with client := some c.clients.size } else p)
    exact hp.trans (calm_event _ id (.connected (.ok ())))

/-- A search goes on, and finds no server for the client. -/
theorem calm_searchOn (c : Cell) (id : Nat) (name : Option String) {next : Search.Next}
    (hf : ∀ s, next = .found s → s.config.client ≠ x) : Calm x c (c.searchOn id name next) := by
  have hd : Calm x c (c.dropSearch id) := .of_eq rfl rfl rfl rfl fun _ => .refl _
  cases next with
  | ask s =>
    unfold searchOn
    refine (hd.trans ?_).trans (calm_send _ (fun _ _ e => by cases e) _ _)
    exact .of_eq rfl rfl rfl rfl fun _ => .refl _
  | found s => exact (hd.trans (calm_begin _ (hf s rfl))).trans (calm_found c id name s)
  | failed e =>
    cases name with
    | some n => exact hd.trans (calm_finish _ _ _)
    | none => exact hd.trans (calm_event _ id _)

/-! ## Requests are answered -/

theorem calm_setFlight {f : Flight} (h : ∀ g ∈ c.flights, g.id = f.id → g.errand = f.errand) :
    Calm x c (c.setFlight f) := by
  refine .of_eq rfl rfl rfl rfl fun i => ?_
  unfold out sent
  rw [errands_setFlight h]
  exact .refl _

end Cell

end LockCell
