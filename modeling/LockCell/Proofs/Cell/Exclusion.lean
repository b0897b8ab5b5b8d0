import LockCell.Proofs.Cell.Turns
import LockCell.Proofs.Server.Agreement
import Mathlib.Data.Fintype.EquivFin

/-
  LockCell.Proofs.Cell.Exclusion — when the sessions of a server exclude each other.

  A server keeps its lock table while others lead. Meanwhile another leader may delete a
  lock that a session here still lists; when this server leads again its list is stale: it
  names a lock that does not exist (`Stale`). As long as no state of a run is stale, two
  live sessions of different clients at one server have one lock in the shared mode only,
  through all elections (`exclusive_unless_stale`). A stale server gives the lock out again:
  three requests of a new client, to open a session, to open the lock and to take it, make
  it the second owner. A run of twelve requests and elections gets there (`takeover`); one in
  which no lock is deleted while another leads does not (`sharing`).
-/

namespace LockCell

theorem forall_getElem?_iff {α : Type} {xs : Array α} {P : α → Prop} :
    (∀ (i : Nat) (x : α), xs[i]? = some x → P x) ↔ ∀ x ∈ xs, P x := by
  constructor
  · intro h x hx
    obtain ⟨i, hi⟩ := Array.mem_iff_getElem?.1 hx
    exact h i x hi
  · intro h i x hi
    exact h x (Array.mem_of_getElem? hi)

namespace Server

/-- Two live sessions of different clients have one lock in the shared mode only. -/
def Exclusive (v : Server) : Prop :=
  ∀ (i j : Nat) (s t : Session), v.sessions[i]? = some s → v.sessions[j]? = some t →
    s.live = true → t.live = true → s.client ≠ t.client →
    ∀ p ∈ s.held, p ∈ t.held → s.held[p]? = some .shared ∧ t.held[p]? = some .shared

/-- The server leads, and a session of it lists a lock that does not exist. -/
def Stale (v : Server) (k : Cluster) : Prop := k.leads v.node = true ∧ ¬ v.Stored k

instance (v : Server) : Decidable v.Exclusive :=
  decidable_of_iff (∀ s ∈ v.sessions, ∀ t ∈ v.sessions, s.live = true → t.live = true →
      s.client ≠ t.client → ∀ p ∈ s.held.keys, p ∈ t.held →
        s.held[p]? = some .shared ∧ t.held[p]? = some .shared) <| by
    simp only [← forall_getElem?_iff, Std.ExtTreeMap.mem_keys]
    exact ⟨fun h i j s t hi hj => h i s hi j t hj, fun h i s hi j t hj => h i j s t hi hj⟩

instance (v : Server) (k : Cluster) : Decidable (v.Stored k) :=
  decidable_of_iff (∀ s ∈ v.sessions, ∀ p ∈ s.held.keys, p ∈ k.contents) <| by
    simp only [← forall_getElem?_iff, Std.ExtTreeMap.mem_keys, Stored]

instance (v : Server) (k : Cluster) : Decidable (v.Stale k) := inferInstanceAs (Decidable (_ ∧ _))

variable {v : Server} {k : Cluster}

theorem Agrees.exclusive (h : v.Agrees k) : v.Exclusive := by
  intro i j s t hi hj _ _ hne p hp hp'
  obtain ⟨m, hm⟩ := Dict.getElem?_of_mem hp
  obtain ⟨m', hm'⟩ := Dict.getElem?_of_mem hp'
  have hs := h.backed i s hi p m hm
  have ht := h.backed j t hj p m' hm'
  obtain ⟨rfl, rfl⟩ := hs.shared h.sound ht hne
  exact ⟨hm, hm'⟩

/-- Nothing but staleness stands between agreement with one store and with another. -/
theorem Agrees.of_not_stale (h : v.Agrees k) {k' : Cluster} (hs : ¬ v.Stale k') : v.Agrees k' where
  toKept := h.toKept
  sound := h.sound
  backed := h.backed
  stored hl := Classical.byContradiction fun hn => hs ⟨hl, hn⟩

end Server

namespace Cell

/-- At every server, sessions of different clients exclude each other. -/
def Exclusive (c : Cell) : Prop :=
  ∀ (i : Nat) (v : Server), c.servers[i]? = some v → v.Exclusive

/-- A server of the cell is stale. -/
def Stale (c : Cell) : Prop :=
  ∃ (i : Nat) (v : Server), c.servers[i]? = some v ∧ v.Stale c.cluster

instance (c : Cell) : Decidable c.Exclusive :=
  decidable_of_iff (∀ v ∈ c.servers, v.Exclusive) forall_getElem?_iff.symm

instance (c : Cell) : Decidable c.Stale :=
  decidable_of_iff (¬ ∀ v ∈ c.servers, ¬ v.Stale c.cluster) <| by
    rw [← forall_getElem?_iff]
    simp only [Stale, not_forall, not_not, exists_prop]

/-- Every server's sessions agree with its table, and no two servers are one node. -/
structure ServersAgree (x : Array Server × Cluster) : Prop where
  server : ∀ (i : Nat) (v : Server), x.1[i]? = some v → v.Agrees x.2
  distinct : ∀ (i j : Nat) (v w : Server), x.1[i]? = some v → x.1[j]? = some w →
    v.node = w.node → i = j

def Agrees (c : Cell) : Prop := ServersAgree (c.servers, c.cluster)

variable {W : Client → Prop} {c c' : Cell}

theorem Agrees.kept (h : c.Agrees) : c.Kept := fun i v hv => (h.server i v hv).toKept

/-- A move of one server leaves the others in agreement: what it writes, it writes as the
leader, and then the others do not lead. -/
theorem Shift.agrees {now : Nat} {x y : Array Server × Cluster} (hs : Shift W now x y)
    (h : ServersAgree x) : ServersAgree y := by
  cases hs with
  | @move vs k i v y hv hm =>
    have hav : v.Agrees k := h.server i v hv
    obtain ⟨hn, hl⟩ := hm.leads hav.sound
    have hlt := (Array.getElem?_eq_some_iff.1 hv).1
    have get : ∀ j w, (vs.setIfInBounds i y.1)[j]? = some w →
        (j = i ∧ w = y.1) ∨ (j ≠ i ∧ vs[j]? = some w) := fun j w hw => by
      simp only [Array.getElem?_setIfInBounds, hlt, if_true] at hw
      split at hw
      · rename_i e
        cases hw
        exact Or.inl ⟨e.symm, rfl⟩
      · rename_i e
        exact Or.inr ⟨Ne.symm e, hw⟩
    refine ⟨fun j w hw => ?_, fun j j' w w' hw hw' he => ?_⟩
    · rcases get j w hw with ⟨-, rfl⟩ | ⟨hne, hw⟩
      · exact hm.agrees hav
      · have haw : w.Agrees k := h.server j w hw
        by_cases hlv : k.leads v.node = true
        · refine haw.of_not_stale fun hst => hne (h.distinct j i w v hw hv ?_)
          have hlw := hst.1
          rw [Cluster.leads_of_leader_eq hl] at hlw
          simp only [Cluster.leads, beq_iff_eq] at hlv hlw
          exact Option.some.inj (hlw.symm.trans hlv)
        · exact haw.of_contents hl (hm.contents_eq hav.sound hlv)
    · rcases get j w hw with ⟨rfl, rfl⟩ | ⟨-, hj⟩ <;>
        rcases get j' w' hw' with ⟨rfl, rfl⟩ | ⟨-, hj'⟩
      · rfl
      · exact h.distinct j j' v w' hv hj' (hn.symm.trans he)
      · exact h.distinct j j' w v hj hv (he.trans hn)
      · exact h.distinct j j' w w' hj hj' he

theorem Shifts.agrees (hs : Shifts W c c') (h : c.Agrees) : c'.Agrees := by
  have keep : ∀ x y, Relation.ReflTransGen (Shift W c.now) x y → ServersAgree x →
      ServersAgree y := by
    intro x y hp hx
    induction hp with
    | refl => exact hx
    | tail _ hs ih => exact hs.agrees ih
  exact keep _ _ hs.path h

/-- While no server changes, only staleness could end the agreement. -/
theorem Agrees.of_servers_eq (h : c.Agrees) (hs : c'.servers = c.servers) (hn : ¬ c'.Stale) :
    c'.Agrees where
  server i v hv := by
    have hv : c'.servers[i]? = some v := hv
    have hst : ¬ v.Stale c'.cluster := fun hst => hn ⟨i, v, hv, hst⟩
    rw [hs] at hv
    exact (h.server i v hv).of_not_stale hst
  distinct := by
    intro i j v w hi hj
    rw [hs] at hi hj
    exact h.distinct i j v w hi hj

theorem Agrees.of_eq (h : c.Agrees) (hs : c'.servers = c.servers) (hk : c'.cluster = c.cluster) :
    c'.Agrees := by
  unfold Agrees
  rw [hs, hk]
  exact h

theorem agrees_act {s : CellStep} (hs : s.Ordinary) (h : c.Agrees) (hn : ¬ (c.act s).2.Stale) :
    (c.act s).2.Agrees := by
  obtain ⟨c₁, hv, -, hm, hk | hk | rfl⟩ := act_sets h.kept hs
  · refine hm.agrees ?_
    unfold Agrees
    rw [hv, hk]
    exact h
  · refine hm.agrees (h.of_servers_eq hv ?_)
    intro hx
    obtain ⟨i, v, -, hl, -⟩ := hx
    simp [Cluster.leads, hk] at hl
  · exact h.of_servers_eq hv hn

theorem Turn.agrees (ht : Turn (fun _ s => s.Ordinary) c c') (h : c.Agrees) (hn : ¬ c'.Stale) :
    c'.Agrees := by
  cases ht with
  | act hs => exact agrees_act hs h hn
  | next hc => exact (shifts_next? h.kept hc).agrees h
  | wait => exact h.of_eq rfl rfl

theorem agrees_start (lease : LeaseConfig) (latency : Nat) {nodes : List (Node × Addr × Addr)}
    (hn : (nodes.map (·.1)).Nodup) (leader : Option Node) :
    (start lease latency nodes leader).Agrees := by
  refine ⟨fun i v hv => ?_, fun i j v w hv hw he => ?_⟩
  · obtain ⟨x, -, rfl⟩ := server_of_start hv
    exact Server.agrees_fresh _ _ _ _
  · obtain ⟨x, hx, rfl⟩ := server_of_start hv
    obtain ⟨y, hy, rfl⟩ := server_of_start hw
    have hi : (nodes.map (·.1))[i]? = some x.1 := by rw [List.getElem?_map, hx]; rfl
    have hj : (nodes.map (·.1))[j]? = some y.1 := by rw [List.getElem?_map, hy]; rfl
    have hlt := (List.getElem?_eq_some_iff.1 hi).1
    exact (List.getElem?_inj hlt hn).1 (hi.trans ((congrArg some he).trans hj.symm))

/-- No state of the run is stale. -/
abbrev FreshTurns : Cell → Cell → Prop :=
  Relation.ReflTransGen fun c c' => Turn (fun _ s => s.Ordinary) c c' ∧ ¬ c'.Stale

theorem agrees_of_freshTurns (h : FreshTurns c c') (ha : c.Agrees) : c'.Agrees := by
  induction h with
  | refl => exact ha
  | tail _ ht ih => exact ht.1.agrees ih ht.2

end Cell

/-! ## A stale server -/

namespace Server

variable {v : Server} {k : Cluster}

/-- Requests served one after another. -/
def serves (v : Server) (k : Cluster) (now : Nat) (qs : List Request) : Server × Cluster :=
  qs.foldl (fun x q => (x.1.serve x.2 now q).2) (v, k)

theorem exists_new_name {β : Type} (d : Dict β) : ∃ z : String, z ∉ d := by
  obtain ⟨z, hz⟩ := Infinite.exists_notMem_finset d.keys.toFinset
  refine ⟨z, fun h => hz ?_⟩
  rw [List.mem_toFinset, Std.ExtTreeMap.mem_keys]
  exact h

theorem serve_initSession (hl : k.leads v.node = true) {z : Client} (hz : v.registry[z]? = none)
    (now : Nat) : (v.serve k now (.initSession z)).2 = (v.push z now, k) := by
  have hs : v.session? z = none := by simp [session?, hz]
  simp [serve, lead, create, hl, hs]

/-- A session opens a lock that does not exist; then the lock is nobody's, and every session
is as it was. -/
theorem serve_openLock (hs : v.slots.Sound) (hl : k.leads v.node = true) {z : Client} {i : Nat}
    {s : Session} (hz : v.session? z = some (i, s)) (he : s.ended = false) {p : Path}
    (hp : p ∉ k.contents) (now : Nat) :
    ∃ (v' : Server) (k' : Cluster), (v.serve k now (.openLock z p)).2 = (v', k') ∧
      v'.slots.Sound ∧ k'.leads v'.node = true ∧ p ∈ k'.contents ∧
      (∀ c m, ¬ v'.slots.Holds c p m) ∧ v'.registry = v.registry ∧
      ∀ j : Nat, v'.sessions[j]? = v.sessions[j]? := by
  have hi := (session?_eq_some_iff.1 hz).2
  have hleader := Locks.leader_openLock v.node (v.locks k) p
  refine ⟨{ v.setSession i s with slots := ((v.locks k).openLock v.store p).2.slots },
    ((v.locks k).openLock v.store p).2.store, ?_, Locks.sound_openLock v.node hs p,
    (Cluster.leads_of_leader_eq hleader v.node).trans hl,
    (Locks.mem_openLock v.node (v.locks k) p p).2 (Or.inr ⟨hl, rfl⟩), fun c m hm => ?_, rfl,
    fun j => (sessions_setSession hi s j).trans ?_⟩
  · simp only [serve, lead, hl, if_true, onLive_of_live hz he, onSession_of_some hi]
    simp only [Session.openLock, Session.whenLive, he, Bool.false_eq_true, if_false]
  · exact ((Locks.holds_openLock v.node (v.locks k) c p p m).1 hm).2 ⟨hp, hl, rfl⟩
  · split
    · rename_i e
      rw [e, hi]
    · rfl

/-- A lock that is nobody's is given to whoever asks for it. -/
theorem serve_acquireLock (hs : v.slots.Sound) (hl : k.leads v.node = true) {z : Client} {i : Nat}
    {s : Session} (hz : v.session? z = some (i, s)) (he : s.ended = false) {p : Path}
    (hh : p ∉ s.held) (hp : p ∈ k.contents) (hf : ∀ c m, ¬ v.slots.Holds c p m) (now : Nat) :
    ∃ (v' : Server) (k' : Cluster), (v.serve k now (.acquireLock z p .exclusive)).2 = (v', k') ∧
      ∀ j : Nat, v'.sessions[j]? =
        if j = i then some { s with held := s.held.insert p .exclusive } else v.sessions[j]? := by
  have hi := (session?_eq_some_iff.1 hz).2
  have hok := (Locks.acquire_eq_true_iff v.node (l := v.locks k) hs s.client p .exclusive).2
    ⟨rfl, hp, hf s.client, Or.inl hf⟩
  simp only [serve, lead, hl, if_true, onLive_of_live hz he, onSession_of_some hi]
  simp only [Session.acquire, Session.whenLive, he, Bool.false_eq_true, if_false, if_neg hh]
  revert hok
  unfold store
  rcases (v.locks k).acquire (Cluster.storeOf v.node) s.client p .exclusive with ⟨_ | _ | _, l⟩ <;>
    intro hok
  · cases hok
  · cases hok
  · exact ⟨_, _, rfl, sessions_setSession hi _⟩

/-- A stale server gives a lock that one session lists to a new client as well. -/
theorem not_exclusive_of_stale (hk : v.Kept) (hs : v.slots.Sound) (hst : v.Stale k) (now : Nat) :
    ∃ z p, ¬ (v.serves k now
      [.initSession z, .openLock z p, .acquireLock z p .exclusive]).1.Exclusive := by
  obtain ⟨hl, hn⟩ := hst
  simp only [Stored, not_forall] at hn
  obtain ⟨j, t, ht, p, hp, hc⟩ := hn
  have hlive := hk.live_of_mem ht hp
  have hlt := (Array.getElem?_eq_some_iff.1 ht).1
  obtain ⟨z, hz⟩ := exists_new_name v.registry
  have hne : t.client ≠ z := by
    intro he
    obtain rfl := he
    exact hz (Dict.mem_of_getElem? (hk.newest j t ht hlive))
  -- a session is opened
  have h₁ := serve_initSession hl (Std.ExtTreeMap.getElem?_eq_none hz) now
  have hz₁ : (v.push z now).session? z = some (v.sessions.size, .begin z v.lease now) :=
    session?_eq_some_iff.2 ⟨by rw [registry_push, if_pos rfl], by rw [sessions_push, if_pos rfl]⟩
  -- the lock is opened
  obtain ⟨v₂, k₂, h₂, hs₂, hl₂, hp₂, hf₂, hr₂, hi₂⟩ :=
    serve_openLock (v := v.push z now) hs hl hz₁ rfl hc now
  have hz₂ : v₂.session? z = some (v.sessions.size, .begin z v.lease now) := by
    obtain ⟨hr, hi⟩ := session?_eq_some_iff.1 hz₁
    exact session?_eq_some_iff.2 ⟨by rw [hr₂, hr], by rw [hi₂, hi]⟩
  -- the lock is taken
  obtain ⟨v₃, k₃, h₃, hi₃⟩ :=
    serve_acquireLock hs₂ hl₂ hz₂ rfl (by simp [Session.begin]) hp₂ hf₂ now
  refine ⟨z, p, fun hex => ?_⟩
  have e : v.serves k now [.initSession z, .openLock z p, .acquireLock z p .exclusive] =
      (v₃, k₃) := by
    simp only [serves, List.foldl_cons, List.foldl_nil, h₁, h₂, h₃]
  rw [e] at hex
  have hj : v₃.sessions[j]? = some t := by
    rw [hi₃, if_neg (by omega), hi₂, sessions_push, if_neg (by omega), ht]
  have hi := hi₃ v.sessions.size
  rw [if_pos rfl] at hi
  have both := hex j v.sessions.size t _ hj hi (by simp [Session.live, hlive]) rfl hne p hp
    (by simp)
  simp at both

end Server

namespace Cell

variable {W : Client → Prop} {c c' : Cell}

/-- The servers of a cell keep their registries and their tables in order in every run,
stale or not. -/
def Whole (c : Cell) : Prop :=
  ∀ (i : Nat) (v : Server), c.servers[i]? = some v → v.Kept ∧ v.slots.Sound

theorem Whole.kept (h : c.Whole) : c.Kept := fun i v hv => (h i v hv).1

theorem Agrees.whole (h : c.Agrees) : c.Whole := fun i v hv =>
  ⟨(h.server i v hv).toKept, (h.server i v hv).sound⟩

theorem Shifts.whole (hs : Shifts W c c') (h : c.Whole) : c'.Whole :=
  hs.invariant (Q := fun _ v => v.Kept ∧ v.slots.Sound)
    (fun _ _ _ hm hv => ⟨hm.kept hv.1, hm.sound hv.2⟩) h

theorem Turn.whole (ht : Turn (fun _ s => s.Ordinary) c c') (h : c.Whole) : c'.Whole := by
  cases ht with
  | act hs =>
    obtain ⟨c₁, hv, -, hm, -⟩ := act_sets h.kept hs
    have h₁ : c₁.Whole := by
      unfold Whole
      rw [hv]
      exact h
    exact hm.whole h₁
  | next hc => exact (shifts_next? h.kept hc).whole h
  | wait => exact h

theorem whole_of_turns (ht : Turns (fun _ s => s.Ordinary) c c') (h : c.Whole) : c'.Whole :=
  ht.invariant (fun _ _ ht => ht.whole) h

theorem whole_start (lease : LeaseConfig) (latency : Nat) (nodes : List (Node × Addr × Addr))
    (leader : Option Node) : (start lease latency nodes leader).Whole := by
  intro i v hv
  obtain ⟨x, -, rfl⟩ := server_of_start hv
  exact ⟨Server.kept_fresh _ _ _, Slots.sound_empty⟩

/-! ## Two runs -/

/-- Two nodes, of which `a` leads. -/
def twoServers : Cell := start .fast 0 [("a", "a:1", "a:1"), ("b", "b:1", "b:1")] (some "a")

def ask (a : Addr) (q : Request) : CellStep := .call "" (.rpc a (some q))

/-- Two clients come to share a lock at `a`; in between `b` leads. -/
def sharing : List (CellStep × Nat) :=
  [(ask "a:1" (.initSession "x"), 2), (ask "a:1" (.openLock "x" "L"), 1),
   (ask "a:1" (.acquireLock "x" "L" .shared), 1), (.elect "b", 0),
   (ask "b:1" (.initSession "y"), 2), (.elect "a", 0),
   (ask "a:1" (.initSession "y"), 2), (ask "a:1" (.acquireLock "y" "L" .shared), 1)]

/-- A client takes a lock at `a`; another one takes and deletes it while `b` leads; a third
takes it when `a` leads again. -/
def takeover : List CellStep :=
  [ask "a:1" (.initSession "x"), ask "a:1" (.openLock "x" "L"),
   ask "a:1" (.acquireLock "x" "L" .exclusive), .elect "b",
   ask "b:1" (.initSession "y"), ask "b:1" (.openLock "y" "L"),
   ask "b:1" (.acquireLock "y" "L" .exclusive), ask "b:1" (.deleteLock "y" "L"), .elect "a",
   ask "a:1" (.initSession "z"), ask "a:1" (.openLock "z" "L"),
   ask "a:1" (.acquireLock "z" "L" .exclusive)]

theorem freshTurns_of_sharing (h : script (fun c => decide (¬ c.Stale)) sharing twoServers = some c) :
    FreshTurns twoServers c := by
  refine settledTurns_of_script (P := fun _ s => s.Ordinary) (fun c c' ht hok => ?_) ?_ h
  · exact ⟨ht.turn fun _ _ => id, of_decide_eq_true hok⟩
  · intro y hy d
    simp only [sharing, List.mem_cons, List.not_mem_nil, or_false] at hy
    rcases hy with rfl | rfl | rfl | rfl | rfl | rfl | rfl | rfl <;> trivial

/-- Nothing in the second run, nor in a part of it, is out of the ordinary. -/
theorem turns_of_takeover {l : List CellStep} (hl : l ⊆ takeover) :
    Turns (fun _ s => s.Ordinary) twoServers (twoServers.steps l) := by
  refine turns_steps (Q := Whole) (fun _ _ ht => ht.whole) (fun _ h => h.kept)
    (fun s hs => Or.inl fun _ => ?_) (whole_start _ _ _ _)
  have hs := hl hs
  simp only [takeover, List.mem_cons, List.not_mem_nil, or_false] at hs
  rcases hs with rfl | rfl | rfl | rfl | rfl | rfl | rfl | rfl | rfl | rfl | rfl | rfl <;> trivial

/-! ## Sessions exclude each other unless they are stale -/

/-- Through all requests, timers, elections and losses, the live sessions of a server exclude
each other while no state of the run is stale. In every stale state that a run reaches they
stop doing so after three requests to the stale server. -/
theorem exclusive_unless_stale (lease : LeaseConfig) (latency : Nat)
    {nodes : List (Node × Addr × Addr)} (hn : (nodes.map (·.1)).Nodup) (leader : Option Node) :
    (∀ c, FreshTurns (start lease latency nodes leader) c → c.Exclusive) ∧
      ∀ c, Turns (fun _ s => s.Ordinary) (start lease latency nodes leader) c →
        ∀ (i : Nat) (v : Server), c.servers[i]? = some v → v.Stale c.cluster →
          ∃ z p, ¬ (v.serves c.cluster c.now
            [.initSession z, .openLock z p, .acquireLock z p .exclusive]).1.Exclusive := by
  have ha := agrees_start lease latency hn leader
  refine ⟨fun c hc => ?_, fun c hc i v hv hst => ?_⟩
  · exact fun i v hv => ((agrees_of_freshTurns hc ha).server i v hv).exclusive
  · obtain ⟨hk, hs⟩ := whole_of_turns hc ha.whole i v hv
    exact Server.not_exclusive_of_stale hk hs hst c.now

/-- Through two elections the clients share the lock and exclude each other. When `a` leads again
after its lock was deleted, it is stale. -/
theorem exclusive_until_takeover :
    ([("a", "a:1", "a:1"), ("b", "b:1", "b:1")].map (·.1) : List Node).Nodup ∧
      (∃ c v s t, FreshTurns twoServers c ∧ c.servers[0]? = some v ∧ v.sessions[0]? = some s ∧
        v.sessions[1]? = some t ∧ s.live = true ∧ t.live = true ∧ s.client ≠ t.client ∧
        "L" ∈ s.held ∧ "L" ∈ t.held ∧ c.Exclusive) ∧
      ∃ c v, Turns (fun _ s => s.Ordinary) twoServers c ∧ c.servers[0]? = some v ∧
        v.Stale c.cluster ∧ ∃ z p, ¬ (v.serves c.cluster c.now
          [.initSession z, .openLock z p, .acquireLock z p .exclusive]).1.Exclusive := by
  have hn : ([("a", "a:1", "a:1"), ("b", "b:1", "b:1")].map (·.1) : List Node).Nodup := by decide
  obtain ⟨exclusive, broken⟩ := exclusive_unless_stale .fast 0 hn (some "a")
  refine ⟨hn, ?_, ?_⟩
  · have hrun : (script (fun c => decide (¬ c.Stale)) sharing twoServers).any (fun c =>
        (c.servers[0]?).any fun v => (v.sessions[0]?).any fun s => (v.sessions[1]?).any fun t =>
          s.live && t.live && s.client != t.client && s.held.contains "L" &&
            t.held.contains "L") = true := by decide +kernel
    simp only [Option.any_eq_true, Bool.and_eq_true, bne_iff_ne,
      Std.ExtTreeMap.contains_iff_mem] at hrun
    obtain ⟨c, hc, v, hv, s, hs, t, ht, ⟨⟨⟨hls, hlt⟩, hne⟩, hp⟩, hq⟩ := hrun
    have hf := freshTurns_of_sharing hc
    exact ⟨c, v, s, t, hf, hv, hs, ht, hls, hlt, hne, hp, hq, exclusive c hf⟩
  · have hrun : ((twoServers.steps (takeover.take 9)).servers[0]?).any (fun v =>
        decide (v.Stale (twoServers.steps (takeover.take 9)).cluster)) = true := by decide +kernel
    simp only [Option.any_eq_true, decide_eq_true_eq] at hrun
    obtain ⟨v, hv, hst⟩ := hrun
    have ht := turns_of_takeover (List.take_subset 9 takeover)
    exact ⟨_, v, ht, hv, hst, broken _ ht 0 v hv hst⟩

theorem not_exclusive_of_takeover :
    ∃ c, Turns (fun _ s => s.Ordinary)
      (start .fast 0 [("a", "a:1", "a:1"), ("b", "b:1", "b:1")] (some "a")) c ∧
        ¬ c.Exclusive :=
  ⟨_, turns_of_takeover (List.Subset.refl takeover), by decide +kernel⟩

end Cell

end LockCell
