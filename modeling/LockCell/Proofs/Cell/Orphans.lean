import LockCell.Proofs.Cell.Exclusion
import LockCell.Proofs.Cell.Work

/-
  LockCell.Proofs.Cell.Orphans — when the end of a session leaves its client an owner.

  The sessions and the table of a server stay there while others lead, and the store is
  everybody's. So another leader may delete a lock that a session here lists, and if that
  session ends before the lock is made again, its client stays in the record with nobody to
  answer for it. That is the only way: every owner in every state of every run is listed by its
  live session, or was left behind by such an end (`listed_or_left`). A run of eight requests
  and one election, after which a lease runs out, gets there (`orphan_of_deleted`).
-/

namespace LockCell

namespace Server

variable {v v' v'' : Server} {k : Cluster}

theorem Deserted.cleanly (h : v.Deserted v') : v.Cleanly v' := by
  have hslots : v'.slots = v.slots := by rw [h.frame]
  refine .of (fun x p hx => Or.inl ?_) fun x p _ hx => ?_
  · obtain ⟨m, hm⟩ := hx
    exact ⟨m, hslots ▸ hm⟩
  · obtain ⟨i, s, hi, hx⟩ := hx
    obtain ⟨l, hl⟩ := h.session i s hi
    exact ⟨i, _, hl, hx⟩

theorem Accounted.deserted (h : v.Accounted k v') (hd : v'.Deserted v'') : v.Accounted k v'' := by
  intro x p ho
  rcases h x p (hd.cleanly x p ho) with ho | ⟨he, hp⟩
  · exact Or.inl ho
  · exact Or.inr ⟨he.deserted hd, hp⟩

end Server

namespace Cell

variable {c c' : Cell} {i : Nat} {v v' : Server} {x : Client} {p : Path}

/-- At the server of that number a session of the client has ended while the lock on its list
did not exist, and has left the client in the record. -/
def Leaves (c c' : Cell) (i : Nat) (x : Client) (p : Path) : Prop :=
  ∃ v v', c.servers[i]? = some v ∧ c'.servers[i]? = some v' ∧ v.Ends v' x p ∧
    p ∉ c.cluster.contents ∧ v'.Orphan x p

theorem Turn.orphan (ht : Turn (fun _ s => s.Ordinary) c c') (hc : c.Whole)
    (hv' : c'.servers[i]? = some v') (ho : v'.Orphan x p) :
    (∃ v, c.servers[i]? = some v ∧ v.Orphan x p) ∨ c.Leaves c' i x p := by
  have hlt := (Array.getElem?_eq_some_iff.1 hv').1
  rw [ht.size fun _ _ => id] at hlt
  have hv : c.servers[i]? = some c.servers[i] := Array.getElem?_eq_getElem hlt
  obtain ⟨u, hu, h⟩ := ht.server (fun _ _ => id) hv
  rw [hv'] at hu
  cases hu
  rcases h with hd | ⟨a, -, hd⟩
  · exact Or.inl ⟨_, hv, hd.cleanly x p ho⟩
  · have ha := Server.accounted_does (k := c.cluster) (hc i _ hv).2 c.now a
    rcases ha.deserted hd x p ho with hold | ⟨he, hp⟩
    · exact Or.inl ⟨_, hv, hold⟩
    · exact Or.inr ⟨_, v', hv, hv', he, hp, ho⟩

/-- Every orphan of a run was left by one of its turns. -/
theorem exists_leaves_of_orphan {c₀ : Cell} (hw : c₀.Whole)
    (h₀ : ∀ (i : Nat) (v : Server), c₀.servers[i]? = some v → ¬ v.Orphan x p)
    (ht : Turns (fun _ s => s.Ordinary) c₀ c) (hv : c.servers[i]? = some v)
    (ho : v.Orphan x p) :
    ∃ d d', Turns (fun _ s => s.Ordinary) c₀ d ∧ Turn (fun _ s => s.Ordinary) d d' ∧
      Turns (fun _ s => s.Ordinary) d' c ∧ d.Leaves d' i x p := by
  induction ht generalizing v with
  | refl => exact absurd ho (h₀ i v hv)
  | @tail d d' hd ht ih =>
    rcases ht.orphan (whole_of_turns hd hw) hv ho with ⟨w, hw, ho⟩ | hl
    · obtain ⟨e, e', he, hee, he', hl⟩ := ih hw ho
      exact ⟨e, e', he, hee, he'.tail ht, hl⟩
    · exact ⟨d, d', hd, ht, .refl, hl⟩

/-- **An owner has a live session that lists the lock, or it was left behind.** Whoever is an
owner of a lock in the table of a server, in any state of any run, has a live session there
with the lock on its list, unless a session of it has ended there earlier while the lock did
not exist in the store. And the end of a session leaves its client behind in those records of
its list that have it for an owner and whose locks do not exist then, and in no others. -/
theorem listed_or_left (lease : LeaseConfig) (latency : Nat) (nodes : List (Node × Addr × Addr))
    (leader : Option Node)
    (ht : Turns (fun _ s => s.Ordinary) (start lease latency nodes leader) c)
    (hv : c.servers[i]? = some v) :
    (∀ p r x, v.slots.record? p = some r → x ∈ r.owners → v.Listed x p ∨
      ∃ d d', Turns (fun _ s => s.Ordinary) (start lease latency nodes leader) d ∧
        Turn (fun _ s => s.Ordinary) d d' ∧ Turns (fun _ s => s.Ordinary) d' c ∧
        d.Leaves d' i x p) ∧
    ∀ (j : Nat) (s : Session), v.sessions[j]? = some s → s.live = true → ∀ p ∈ s.held,
      ((v.terminate c.cluster j).1.Orphan s.client p ↔
        v.Owner s.client p ∧ p ∉ c.cluster.contents) := by
  have hw := whole_start lease latency nodes leader
  obtain ⟨hk, hs⟩ := whole_of_turns ht hw i v hv
  refine ⟨fun p r x hr hx => ?_, fun j s hj hl p hp => Server.orphan_terminate_iff hk hs hj hl hp⟩
  by_cases hlist : v.Listed x p
  · exact Or.inl hlist
  · refine Or.inr (exists_leaves_of_orphan hw (fun j w hw ho => ?_) ht hv
      ⟨⟨r.mode, r, hr, hx, rfl⟩, hlist⟩)
    obtain ⟨y, -, rfl⟩ := server_of_start hw
    obtain ⟨m, hm⟩ := ho.owner
    exact Slots.not_holds_empty x p m hm

/-! ## A run that leaves one -/

/-- A client takes a lock at `a`; another one takes and deletes it while `b` leads. -/
def deletedMeanwhile : List CellStep :=
  [ask "a:1" (.initSession "x"), ask "a:1" (.openLock "x" "L"),
   ask "a:1" (.acquireLock "x" "L" .exclusive), .elect "b",
   ask "b:1" (.initSession "y"), ask "b:1" (.openLock "y" "L"),
   ask "b:1" (.acquireLock "y" "L" .exclusive), ask "b:1" (.deleteLock "y" "L")]

/-- After that time may pass. -/
theorem turns_of_deletedMeanwhile {l : List CellStep} (hl : ∀ s ∈ l, ∃ n, s = .sleep n) :
    let c₀ := start .fast 0 [("a", "a:1", "a:1"), ("b", "b:1", "b:1")] (some "a")
    Turns (fun _ s => s.Outer) c₀ (c₀.steps (deletedMeanwhile ++ l)) := by
  intro c₀
  refine turns_steps (Q := Whole) (fun _ _ ht => ht.ordinary.whole) (fun _ h => h.kept)
    (fun s hs => ?_) (whole_start _ _ _ _)
  rcases List.mem_append.1 hs with hs | hs
  · refine Or.inl fun _ => ?_
    simp only [deletedMeanwhile, List.mem_cons, List.not_mem_nil, or_false] at hs
    rcases hs with rfl | rfl | rfl | rfl | rfl | rfl | rfl | rfl <;> trivial
  · exact Or.inr (hl s hs)

/-- While the first client's session is live it lists the lock, and its end would leave the client
behind. -/
theorem listed_or_left_of_deletedMeanwhile :
    let c₀ := start .fast 0 [("a", "a:1", "a:1"), ("b", "b:1", "b:1")] (some "a")
    let c := c₀.steps deletedMeanwhile
    ∃ v r s, Turns (fun _ s => s.Ordinary) c₀ c ∧ c.servers[0]? = some v ∧
      v.slots.record? "L" = some r ∧ "x" ∈ r.owners ∧ v.sessions[0]? = some s ∧ s.live = true ∧
      "L" ∈ s.held ∧ s.client = "x" ∧ (v.Listed "x" "L" ∨
        ∃ d d', Turns (fun _ s => s.Ordinary) c₀ d ∧ Turn (fun _ s => s.Ordinary) d d' ∧
          Turns (fun _ s => s.Ordinary) d' c ∧ d.Leaves d' 0 "x" "L") ∧
      (v.terminate c.cluster 0).1.Orphan "x" "L" := by
  intro c₀ c
  have hrun : c.cluster.contents.contains "L" = false ∧ (c.servers[0]?).any (fun v =>
      (v.slots.record? "L").any (·.ownedBy "x") && (v.sessions[0]?).any fun s =>
        s.live && s.held.contains "L" && s.client == "x") = true := by decide +kernel
  simp only [Option.any_eq_true, Bool.and_eq_true, beq_iff_eq] at hrun
  obtain ⟨hno, v, hv, ⟨r, hr, hx⟩, s, hs, ⟨hl, hp⟩, hc⟩ := hrun
  rw [Record.ownedBy_iff] at hx
  rw [Std.ExtTreeMap.contains_iff_mem] at hp
  have ht : Turns (fun _ s => s.Ordinary) c₀ c :=
    Relation.ReflTransGen.mono (fun _ _ ht => ht.ordinary) _ _
      (turns_of_deletedMeanwhile (l := []) nofun)
  obtain ⟨hlist, hleft⟩ := listed_or_left .fast 0 _ (some "a") ht hv
  have hmem : "L" ∉ c.cluster.contents := by
    rw [← Std.ExtTreeMap.contains_iff_mem, hno]
    decide
  have ho := (hleft 0 s hs hl "L" hp).2 ⟨⟨r.mode, r, hr, hc ▸ hx, rfl⟩, hmem⟩
  exact ⟨v, r, s, ht, hv, hr, hx, hs, hl, hp, hc, hlist "L" r "x" hr hx, hc ▸ ho⟩

/-- When the lease has run out, no session at `a` is live, and the client still owns the lock
there. -/
theorem orphan_of_deleted :
    ∃ c v, Turns (fun _ s => s.Outer)
      (start .fast 0 [("a", "a:1", "a:1"), ("b", "b:1", "b:1")] (some "a")) c ∧
      c.servers[0]? = some v ∧ (∃ r, v.slots.record? "L" = some r ∧ "x" ∈ r.owners) ∧
      ¬ v.Listed "x" "L" := by
  have hrun : (((start .fast 0 [("a", "a:1", "a:1"), ("b", "b:1", "b:1")] (some "a")).steps
      (deletedMeanwhile ++ [.sleep 1000])).servers[0]?).any (fun v =>
        (v.slots.record? "L").any (·.ownedBy "x") && v.sessions.all (!·.live)) = true := by
    decide +kernel
  simp only [Option.any_eq_true, Bool.and_eq_true] at hrun
  obtain ⟨v, hv, ⟨r, hr, hx⟩, hall⟩ := hrun
  have ht := turns_of_deletedMeanwhile (l := [.sleep 1000]) fun s hs => ⟨1000, List.mem_singleton.1 hs⟩
  refine ⟨_, v, ht, hv, ⟨r, hr, (Record.ownedBy_iff _ _).1 hx⟩, fun h => ?_⟩
  obtain ⟨i, s, hi, -, hl, -⟩ := h
  obtain ⟨hlt, rfl⟩ := Array.getElem?_eq_some_iff.1 hi
  have hno := Array.all_eq_true.1 hall i hlt
  rw [hl] at hno
  cases hno

end Cell

end LockCell
