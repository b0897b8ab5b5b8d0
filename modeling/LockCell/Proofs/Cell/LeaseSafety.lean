import LockCell.Proofs.Cell.Acts

/-
  LockCell.Proofs.Cell.LeaseSafety — no server ends a session while its client still counts
  on it.

  A cell is in order for every client at the start (`safe_start`) and stays so, turn by turn,
  while the client's sessions are left alone (`safe_of_turns`). So whenever the cell has
  settled, an active client session finds a live session of its own at the server that it
  uses, which runs at least as long as the client thinks (`lease_safety`).
-/

namespace LockCell

namespace Cell

variable {x : Client} {c c' : Cell}

/-! ## The start -/

/-- A cell that has only servers. -/
def bare (lease : LeaseConfig) (latency : Nat) (k : Cluster) (servers : Array Server)
    (seats : Dict Seat) (hosts : Dict Host) : Cell :=
  { lease, latency, cluster := k, servers, seats, hosts }

theorem safe_bare {lease : LeaseConfig} {latency : Nat} {k : Cluster} {servers : Array Server}
    {seats : Dict Seat} {hosts : Dict Host} (hk : (bare lease latency k servers seats hosts).Kept)
    (hl : (bare lease latency k servers seats hosts).Leased) :
    Safe x (bare lease latency k servers seats hosts) := by
  have awaits : Awaits x (bare lease latency k servers seats hosts) := by
    refine ⟨List.nodup_nil, fun _ hp => (List.not_mem_nil hp).elim, ?_,
      fun _ hr => (List.not_mem_nil hr).elim, fun _ _ hp => (List.not_mem_nil hp).elim⟩
    intro id hx
    rcases hx with ⟨i, s, hi, -⟩ | ⟨m, hm, -⟩
    · cases hi
    · cases hm
  have seeks : Seeks x (bare lease latency k servers seats hosts) :=
    ⟨fun _ hr => (List.not_mem_nil hr).elim, fun _ he => (List.not_mem_nil he).elim,
      fun _ _ hr => (List.not_mem_nil hr).elim, fun _ _ hr => (List.not_mem_nil hr).elim⟩
  refine ⟨hk, hl, List.nodup_nil, ?_, ?_, ?_, ?_, ?_, ?_, ?_, seeks, awaits, ?_⟩
  · exact fun _ he => (List.not_mem_nil he).elim
  · exact fun _ hw => (List.not_mem_nil hw).elim
  · exact fun _ hw => (List.not_mem_nil hw).elim
  · intro i s hi
    cases hi
  · exact fun _ hy => (List.not_mem_nil hy).elim
  · exact fun _ he => (List.not_mem_nil he).elim
  · exact fun _ ht => (List.not_mem_nil ht).elim
  · intro _ i s hi
    cases hi

theorem exists_bare_start (lease : LeaseConfig) (latency : Nat) (nodes : List (Node × Addr × Addr))
    (leader : Option Node) : ∃ k servers seats hosts,
      start lease latency nodes leader = bare lease latency k servers seats hosts := by
  refine start_induction (Q := fun c => ∃ k servers seats hosts,
    c = bare lease latency k servers seats hosts) ⟨.empty, #[], ∅, ∅, rfl⟩ ?_ ?_
  · intro c n a l hx
    obtain ⟨k, servers, seats, hosts, rfl⟩ := hx
    exact ⟨_, _, _, _, rfl⟩
  · intro c n he
    obtain ⟨k, servers, seats, hosts, rfl⟩ := he
    exact ⟨_, _, _, _, rfl⟩

theorem lease_start (lease : LeaseConfig) (latency : Nat) (nodes : List (Node × Addr × Addr))
    (leader : Option Node) : (start lease latency nodes leader).lease = lease := by
  obtain ⟨k, servers, seats, hosts, e⟩ := exists_bare_start lease latency nodes leader
  rw [e]
  rfl

theorem safe_start (lease : LeaseConfig) (latency : Nat) (nodes : List (Node × Addr × Addr))
    (leader : Option Node) : Safe x (start lease latency nodes leader) := by
  have hv : ∀ (i : Nat) (v : Server), (start lease latency nodes leader).servers[i]? = some v →
      v.Kept ∧ v.lease = lease := by
    intro i v hi
    obtain ⟨n, -, rfl⟩ := server_of_start hi
    exact ⟨Server.kept_fresh _ _ _, rfl⟩
  obtain ⟨k, servers, seats, hosts, e⟩ := exists_bare_start lease latency nodes leader
  rw [e] at hv ⊢
  exact safe_bare (fun i v hi => (hv i v hi).1) fun i v hi => (hv i v hi).2

/-! ## Turn by turn -/

theorem lease_act (hk : c.Kept) {s : CellStep} (hs : s.Spares x c) :
    (c.act s).2.lease = c.lease := by
  by_cases ho : s.Ordinary
  · obtain ⟨c₁, hc⟩ := act_sets hk ho
    exact hc.shifts.lease.trans hc.lease
  · cases s with
    | sleep | restart => exact hs.elim
    | addNode => rfl
    | table n s =>
      simp only [act, onServer]
      split
      · rfl
      · cases s <;> rfl
    | _ => exact absurd trivial ho

theorem Turn.safe (ht : Turn (fun c s => s.Spares x c) c c') (h : Safe x c) :
    Safe x c' ∧ c'.lease = c.lease := by
  cases ht with
  | act hs => exact ⟨h.act hs, lease_act h.kept hs⟩
  | next hc => exact ⟨h.next? hc, (shifts_next? h.kept hc).lease⟩
  | wait hle => exact ⟨h.setClock hle, rfl⟩

theorem safe_of_turns (ht : Turns (fun c s => s.Spares x c) c c') (h : Safe x c) :
    Safe x c' ∧ c'.lease = c.lease := by
  refine ht.invariant (Q := fun d => Safe x d ∧ d.lease = c.lease) ?_ ⟨h, rfl⟩
  intro a b ht ⟨hs, hl⟩
  obtain ⟨hs', hl'⟩ := ht.safe hs
  exact ⟨hs', hl'.trans hl⟩

/-! ## Settled cells -/

theorem step?_of_settled (hc : c.next? = none) {i : Nat} {s : ClientSession}
    (hi : c.clients[i]? = some s) : s.step? c.now = none := by
  unfold next? at hc
  simp only [Option.orElse_eq_orElse, Option.orElse_eq_or, Option.or_eq_none_iff] at hc
  obtain ⟨-, -, -, hc, -⟩ := hc
  have hlt := (Array.getElem?_eq_some_iff.1 hi).1
  have hnone := List.findSome?_eq_none_iff.1 hc i (List.mem_range.2 hlt)
  cases hs : s.step? c.now with
  | none => rfl
  | some st =>
    rw [hi] at hnone
    simp [hs] at hnone

/-- The lease that an active client session has is not over in a settled cell. -/
theorem Safe.lt_deadline (h : Safe x c) (hc : c.next? = none) {i : Nat} {s : ClientSession}
    (hi : c.clients[i]? = some s) (hp : s.phase = .active) : c.now < s.deadline :=
  (h.tidy i s hi).lt_deadline (step?_of_settled hc hi) hp

/-- In every run of a cell that spares a client's sessions, whatever is elected and however
many requests and replies are late or lost: while a client session is active, in a settled cell
or before its lease is over, and is the only one of its name, the server that it uses has a live
session for it that ends no earlier than the client's own lease. -/
theorem lease_safety (lease : LeaseConfig) (latency : Nat) (nodes : List (Node × Addr × Addr))
    (leader : Option Node)
    (ht : Turns (fun c s => s.Spares x c) (start lease latency nodes leader) c) (hl : c.Lone x)
    {i : Nat} {s : ClientSession} (hi : c.clients[i]? = some s) (hx : s.client = x)
    (hlen : s.config.length ≤ lease.length) (hp : s.phase = .active)
    (hc : c.next? = none ∨ c.now < s.deadline) :
    ∃ host v j t, c.hosts[s.server]? = some host ∧ c.servers[host.server]? = some v ∧
      v.session? x = some (j, t) ∧ t.ended = false ∧ s.deadline ≤ t.deadline := by
  obtain ⟨h, e⟩ := safe_of_turns ht (safe_start lease latency nodes leader)
  have e : c.lease = lease := e.trans (lease_start lease latency nodes leader)
  have hlt : c.now < s.deadline := by
    rcases hc with hc | hlt
    · exact h.lt_deadline hc hi hp
    · exact hlt
  obtain ⟨host, v, hh, hv, ho⟩ := h.owed hl i s hi hx (e ▸ hlen) _ _ _ (.lease hp)
  obtain ⟨j, t, hs, he, hd⟩ := ho.live hlt
  exact ⟨host, v, j, t, hh, hv, hs, he, hd⟩

/-- A client opens a session at `a`, and `b` is elected; after that some time passes. -/
def failover : List CellStep := [.call "" (.connect "x" "x" none .fast), .elect "b", .sleep 2000]

/-- The cell has settled, and has one client session, which is active at the address. -/
def activeAt (c : Cell) (x : Client) (a : Addr) (cfg : LeaseConfig) : Bool :=
  c.next?.isNone && c.clients.size == 1 && (c.clients[0]?).any fun s =>
    s.client == x && s.server == a && s.config == cfg && s.phase == .active

theorem lone_of_size (h : c.clients.size = 1) : c.Lone x := by
  intro i j s t hi hj _ _
  have hi := (Array.getElem?_eq_some_iff.1 hi).1
  have hj := (Array.getElem?_eq_some_iff.1 hj).1
  omega

theorem lease_safety_of_failover : ∃ c s,
    Turns (fun c s => s.Spares "x" c)
      (start .fast 0 [("a", "a:1", "a:1"), ("b", "b:1", "b:1")] (some "a")) c ∧
    c.Lone "x" ∧ c.clients[0]? = some s ∧ s.client = "x" ∧ s.server = "b:1" ∧
    s.config.length ≤ LeaseConfig.fast.length ∧ s.phase = .active ∧ c.next? = none ∧
    ∃ host v j t, c.hosts[s.server]? = some host ∧ c.servers[host.server]? = some v ∧
      v.session? "x" = some (j, t) ∧ t.ended = false ∧ s.deadline ≤ t.deadline := by
  obtain ⟨c, e⟩ : ∃ c, c = steps (start .fast 0 [("a", "a:1", "a:1"), ("b", "b:1", "b:1")]
      (some "a")) failover := ⟨_, rfl⟩
  have ht : Turns (fun c s => s.Spares "x" c)
      (start .fast 0 [("a", "a:1", "a:1"), ("b", "b:1", "b:1")] (some "a")) c := by
    rw [e]
    refine turns_steps (fun _ _ ht h => (ht.safe h).1) (fun _ h => h.kept) ?_ (safe_start _ _ _ _)
    intro s hs
    simp only [failover, List.mem_cons, List.not_mem_nil, or_false] at hs
    rcases hs with rfl | rfl | rfl
    · exact Or.inl fun _ => id
    · exact Or.inl fun _ => trivial
    · exact Or.inr ⟨2000, rfl⟩
  have hrun : c.activeAt "x" "b:1" .fast = true := by
    rw [e]
    decide +kernel
  simp only [activeAt, Bool.and_eq_true, beq_iff_eq, Option.isNone_iff_eq_none,
    Option.any_eq_true] at hrun
  obtain ⟨⟨hc, hsize⟩, s, hi, ⟨⟨hx, ha⟩, hg⟩, hp⟩ := hrun
  have hlen : s.config.length ≤ LeaseConfig.fast.length :=
    Nat.le_of_eq (by rw [hg])
  have hl : c.Lone "x" := lone_of_size hsize
  exact ⟨c, s, ht, hl, hi, hx, ha, hlen, hp, hc,
    lease_safety .fast 0 _ _ ht hl hi hx hlen hp (Or.inl hc)⟩

end Cell

end LockCell
