import LockCell.Proofs.Cell.Servers

/-
  LockCell.Proofs.Cell.Turns — the runs of a cell, turn by turn.

  A turn is something done from outside, one thing that happens by itself, or the passing of
  time (`Turn`). Nothing has to happen in time here: a turn may come before the cell has
  settled, and time may pass over an alarm. Every step of a cell is a row of turns
  (`turns_step`), so what holds after all turns holds in every state that a cell goes
  through, settled or not.

  Where it matters that a cell has settled before time passes, the turns are settled ones
  (`SettledTurn`); a `script` takes them, with a check after each.
-/

namespace LockCell

namespace Cell

/-- One turn; `P` says what may be done from outside. -/
inductive Turn (P : Cell → CellStep → Prop) : Cell → Cell → Prop
  | act {c : Cell} {s : CellStep} : P c s → Turn P c (c.act s).2
  | next {c c' : Cell} : c.next? = some c' → Turn P c c'
  | wait {c : Cell} {t : Nat} : c.now ≤ t → Turn P c (c.setClock t)

abbrev Turns (P : Cell → CellStep → Prop) : Cell → Cell → Prop := Relation.ReflTransGen (Turn P)

variable {P : Cell → CellStep → Prop} {c : Cell}

theorem Turn.mono {Q : Cell → CellStep → Prop} (hq : ∀ c s, P c s → Q c s) {c' : Cell}
    (h : Turn P c c') : Turn Q c c' := by
  cases h with
  | act hs => exact .act (hq _ _ hs)
  | next hc => exact .next hc
  | wait ht => exact .wait ht

theorem turns_settleN (n : Nat) (c : Cell) : Turns P c (settleN n c) := by
  induction n generalizing c with
  | zero => exact .refl
  | succ n ih =>
    unfold settleN
    split
    · rename_i c' h
      exact .head (.next h) (ih c')
    · exact .refl

theorem shifts_settleN (hk : c.Kept) (n : Nat) : Shifts (fun _ => True) c (settleN n c) := by
  induction n generalizing c with
  | zero => exact .refl c
  | succ n ih =>
    unfold settleN
    split
    · rename_i c' h
      have h₁ : Shifts (fun _ => True) c c' := (shifts_next? hk h).mono fun _ _ => trivial
      exact h₁.trans (ih (h₁.kept hk))
    · exact .refl c

theorem lt_of_nextInstant? {t : Nat} (h : c.nextInstant? = some t) : c.now < t := by
  have hm := List.min?_mem h
  obtain ⟨a, ha, rfl⟩ := List.mem_map.1 hm
  have hlt : c.now < a := by simpa using (List.mem_filter.1 ha).2
  exact Nat.lt_of_lt_of_le hlt (Clock.le_tick a)

theorem turns_runToN (n : Nat) {t : Nat} (hk : c.Kept) (ht : c.now ≤ t) :
    Turns P c (runToN n t c) := by
  have stop : Turns P c (c.setClock t).settle := .head (.wait ht) (turns_settleN _ _)
  induction n generalizing c with
  | zero => exact stop
  | succ n ih =>
    unfold runToN
    split
    · rename_i u hu
      split
      · rename_i hle
        have hlt := lt_of_nextInstant? hu
        have hk₁ : (c.setClock u).Kept := hk
        have hs := shifts_settleN hk₁ settleFuel
        have hnow : (c.setClock u).settle.now ≤ t := by
          rw [settle, hs.now]
          exact hle
        have h₁ : Turns P c (c.setClock u).settle :=
          .head (.wait (Nat.le_of_lt hlt)) (turns_settleN _ _)
        exact h₁.trans (ih (hs.kept hk₁) hnow (.head (.wait hnow) (turns_settleN _ _)))
      · exact stop
    · exact stop

/-- A step is a row of turns; sleeping takes nothing from outside. -/
theorem turns_step (hk : c.Kept) {s : CellStep} (hs : P c s ∨ ∃ n, s = .sleep n) :
    Turns P c (c.step s).2 := by
  rcases hs with hs | ⟨n, rfl⟩
  · exact .head (.act hs) (turns_settleN _ _)
  · exact (turns_runToN _ hk (Nat.le_add_right _ _)).trans (turns_settleN _ _)

/-- What every turn preserves holds after all turns. -/
theorem Turns.invariant {Q : Cell → Prop} (hq : ∀ c c', Turn P c c' → Q c → Q c') {c' : Cell}
    (ht : Turns P c c') (h : Q c) : Q c' := by
  induction ht with
  | refl => exact h
  | tail _ ht ih => exact hq _ _ ht ih

/-- Steps taken one after another. -/
def steps (c : Cell) (l : List CellStep) : Cell := l.foldl (fun c s => (c.step s).2) c

theorem turns_steps {Q : Cell → Prop} (hq : ∀ c c', Turn P c c' → Q c → Q c')
    (hk : ∀ c, Q c → c.Kept) {l : List CellStep}
    (hl : ∀ s ∈ l, (∀ c, P c s) ∨ ∃ n, s = .sleep n) (h : Q c) : Turns P c (c.steps l) := by
  induction l generalizing c with
  | nil => exact .refl
  | cons s l ih =>
    have hs : P c s ∨ ∃ n, s = .sleep n := (hl s List.mem_cons_self).imp_left fun hs => hs c
    have h₁ : Turns P c (c.step s).2 := turns_step (hk c h) hs
    exact h₁.trans (ih (fun s hs => hl s (List.mem_cons_of_mem _ hs)) (h₁.invariant hq h))

/-! ## Time passes in settled cells -/

/-- A turn in which time passes only when nothing is left to do. -/
inductive SettledTurn (P : Cell → CellStep → Prop) : Cell → Cell → Prop
  | act {c : Cell} {s : CellStep} : P c s → SettledTurn P c (c.act s).2
  | next {c c' : Cell} : c.next? = some c' → SettledTurn P c c'
  | wait {c : Cell} {t : Nat} : c.next? = none → c.now ≤ t → SettledTurn P c (c.setClock t)

theorem SettledTurn.turn {Q : Cell → CellStep → Prop} (hq : ∀ c s, P c s → Q c s) {c c' : Cell}
    (h : SettledTurn P c c') : Turn Q c c' := by
  cases h with
  | act hs => exact .act (hq _ _ hs)
  | next hc => exact .next hc
  | wait _ ht => exact .wait ht

/-- Turns that the cell takes by itself, as long as all is well after each of them. -/
def follow (ok : Cell → Bool) : Nat → Cell → Option Cell
  | 0, c => some c
  | n + 1, c =>
    match c.next?, c.nextInstant? with
    | some c', _ => if ok c' then follow ok n c' else none
    | none, some t => if ok (c.setClock t) then follow ok n (c.setClock t) else none
    | none, none => none

/-- What is done from outside, with the turns that follow each time. -/
def script (ok : Cell → Bool) : List (CellStep × Nat) → Cell → Option Cell
  | [], c => some c
  | (s, n) :: l, c =>
    if ok (c.act s).2 then (follow ok n (c.act s).2).bind (script ok l) else none

theorem settledTurns_of_follow {R : Cell → Cell → Prop} {ok : Cell → Bool}
    (hr : ∀ c c', SettledTurn P c c' → ok c' = true → R c c') {n : Nat} {c c' : Cell}
    (h : follow ok n c = some c') : Relation.ReflTransGen R c c' := by
  induction n generalizing c with
  | zero =>
    cases h
    exact .refl
  | succ n ih =>
    unfold follow at h
    split at h
    · rename_i d t hd
      split at h
      · exact .head (hr _ _ (.next hd) ‹_›) (ih h)
      · cases h
    · rename_i t hd ht
      split at h
      · exact .head (hr _ _ (.wait hd (Nat.le_of_lt (lt_of_nextInstant? ht))) ‹_›) (ih h)
      · cases h
    · cases h

theorem settledTurns_of_script {R : Cell → Cell → Prop} {ok : Cell → Bool}
    (hr : ∀ c c', SettledTurn P c c' → ok c' = true → R c c') {l : List (CellStep × Nat)}
    (hl : ∀ y ∈ l, ∀ c, P c y.1) {c c' : Cell} (h : script ok l c = some c') :
    Relation.ReflTransGen R c c' := by
  induction l generalizing c with
  | nil =>
    cases h
    exact .refl
  | cons y l ih =>
    obtain ⟨s, n⟩ := y
    unfold script at h
    split at h
    · rename_i hok
      obtain ⟨d, hd, h⟩ := Option.bind_eq_some_iff.1 h
      refine .head (hr _ _ (.act (hl _ List.mem_cons_self c)) hok) ?_
      refine (settledTurns_of_follow hr hd).trans (ih (fun y hy => ?_) h)
      exact hl y (List.mem_cons_of_mem _ hy)
    · cases h

/-! ## The start -/

/-- What holds of an empty cell, and of a cell with a node more or with a leader. -/
theorem start_induction {Q : Cell → Prop} {lease : LeaseConfig} {latency : Nat}
    {nodes : List (Node × Addr × Addr)} {leader : Option Node} (h : Q { lease, latency })
    (ha : ∀ (c : Cell) n a l, Q c → Q (c.addNode n a l))
    (he : ∀ (c : Cell) n, Q c → Q { c with cluster := c.cluster.elect n }) :
    Q (start lease latency nodes leader) := by
  unfold start
  have hn := List.foldlRecOn nodes (fun c x => c.addNode x.1 x.2.1 x.2.2) h
    fun c hc x _ => ha c x.1 x.2.1 x.2.2 hc
  cases leader with
  | none => exact hn
  | some n => exact he _ n hn

theorem servers_foldl_addNode (nodes : List (Node × Addr × Addr)) (c : Cell) :
    (nodes.foldl (fun c (n, addr, listen) => c.addNode n addr listen) c).servers =
        c.servers ++ (nodes.map fun (n, _, listen) =>
          ({ node := n, listen, lease := c.lease } : Server)).toArray ∧
      (nodes.foldl (fun c (n, addr, listen) => c.addNode n addr listen) c).lease = c.lease := by
  induction nodes generalizing c with
  | nil => simp
  | cons x nodes ih =>
    obtain ⟨n, addr, listen⟩ := x
    obtain ⟨hs, hl⟩ := ih (c.addNode n addr listen)
    refine ⟨?_, hl⟩
    simp only [List.foldl_cons, hs]
    simp [addNode]

/-- A cell starts with one new server for each node. -/
theorem servers_start (lease : LeaseConfig) (latency : Nat) (nodes : List (Node × Addr × Addr))
    (leader : Option Node) :
    (start lease latency nodes leader).servers = (nodes.map fun (n, _, listen) =>
      ({ node := n, listen, lease } : Server)).toArray := by
  have h := (servers_foldl_addNode nodes { lease, latency }).1
  cases leader <;> simpa [start] using h

theorem server_of_start {lease : LeaseConfig} {latency : Nat} {nodes : List (Node × Addr × Addr)}
    {leader : Option Node} {i : Nat} {v : Server}
    (h : (start lease latency nodes leader).servers[i]? = some v) :
    ∃ x, nodes[i]? = some x ∧ v = { node := x.1, listen := x.2.2, lease } := by
  rw [servers_start, List.getElem?_toArray, List.getElem?_map] at h
  obtain ⟨x, hx, e⟩ := Option.map_eq_some_iff.1 h
  exact ⟨x, hx, e.symm⟩

end Cell

end LockCell
