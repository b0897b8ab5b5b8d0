import LockCell.Cell.Act
import LockCell.Proofs.Server.Moves

/-
  LockCell.Proofs.Cell.Servers — what happens to the servers of a cell.

  Whatever happens in a cell by itself, its servers and their store change by moves of
  single servers and in no other way, while the clock and the hosts stand still (`Shifts`,
  `shifts_next?`). A refresh, or an end before the deadline, comes only of a keep-alive with
  claims that was on its way.
-/

namespace LockCell

namespace Cell

/-- A move of one of the servers. -/
inductive Shift (W : Client → Prop) (now : Nat) :
    Array Server × Cluster → Array Server × Cluster → Prop
  | move {vs : Array Server} {k : Cluster} {i : Nat} {v : Server} {y : Server × Cluster} :
      vs[i]? = some v → Server.Move W now (v, k) y →
      Shift W now (vs, k) (vs.setIfInBounds i y.1, y.2)

/-- The servers and the store of `c'` come from those of `c` by moves. -/
structure Shifts (W : Client → Prop) (c c' : Cell) : Prop where
  now : c'.now = c.now
  hosts : c'.hosts = c.hosts
  lease : c'.lease = c.lease
  path : Relation.ReflTransGen (Shift W c.now) (c.servers, c.cluster) (c'.servers, c'.cluster)

/-- The registries of all servers keep. -/
def Kept (c : Cell) : Prop := ∀ (i : Nat) (v : Server), c.servers[i]? = some v → v.Kept

variable {W : Client → Prop} {c c' c'' : Cell}

namespace Shifts

theorem of_eq (hn : c'.now = c.now) (hh : c'.hosts = c.hosts) (hl : c'.lease = c.lease)
    (hs : c'.servers = c.servers) (hk : c'.cluster = c.cluster) : Shifts W c c' := by
  refine ⟨hn, hh, hl, ?_⟩
  rw [hs, hk]

theorem refl (c : Cell) : Shifts W c c := of_eq rfl rfl rfl rfl rfl

theorem trans (h : Shifts W c c') (h' : Shifts W c' c'') : Shifts W c c'' := by
  refine ⟨h'.now.trans h.now, h'.hosts.trans h.hosts, h'.lease.trans h.lease, ?_⟩
  have hp := h'.path
  rw [h.now] at hp
  exact h.path.trans hp

theorem mono {W' : Client → Prop} (hw : ∀ x, W x → W' x) (h : Shifts W c c') : Shifts W' c c' := by
  refine ⟨h.now, h.hosts, h.lease, Relation.ReflTransGen.mono (fun a b hs => ?_) _ _ h.path⟩
  cases hs with
  | move hv hm => exact .move hv (hm.mono hw)

theorem foldl {α : Type} {f : Cell → α → Cell} (hf : ∀ c a, Shifts W c (f c a)) (l : List α)
    (c : Cell) : Shifts W c (l.foldl f c) := by
  induction l generalizing c with
  | nil => exact refl c
  | cons a l ih => exact (hf c a).trans (ih (f c a))

end Shifts

theorem getElem?_setIfInBounds_self {α : Type} {a : Array α} {i : Nat} {x : α}
    (h : a[i]? = some x) (y : α) : (a.setIfInBounds i y)[i]? = some y := by
  have hlt := (Array.getElem?_eq_some_iff.1 h).1
  simp [hlt]

theorem setIfInBounds_self {α : Type} {a : Array α} {i : Nat} {x : α} (h : a[i]? = some x) :
    a.setIfInBounds i x = a := by
  apply Array.ext_getElem?
  intro j
  simp only [Array.getElem?_setIfInBounds]
  split
  · rename_i e
    subst e
    have hlt := (Array.getElem?_eq_some_iff.1 h).1
    rw [if_pos hlt, h]
  · rfl

/-- Moves of one server are a path of shifts. -/
theorem shift_of_moves {now i : Nat} {vs : Array Server} {x y : Server × Cluster}
    (hv : vs[i]? = some x.1) (hm : Server.Moves W now x y) :
    Relation.ReflTransGen (Shift W now) (vs, x.2) (vs.setIfInBounds i y.1, y.2) := by
  induction hm with
  | refl =>
    rw [setIfInBounds_self hv]
  | @tail y z _ hm ih =>
    refine ih.tail ?_
    have hs := Shift.move (getElem?_setIfInBounds_self hv y.1) hm
    rw [Array.setIfInBounds_setIfInBounds] at hs
    exact hs

theorem shifts_setServer {i : Nat} {v v' : Server} {k' : Cluster} (hv : c.servers[i]? = some v)
    (hm : Server.Moves W c.now (v, c.cluster) (v', k')) : Shifts W c (c.setServer i v' k') :=
  ⟨rfl, rfl, rfl, shift_of_moves (x := (v, c.cluster)) hv hm⟩

/-- What a move keeps at a server is kept at each server by shifts. -/
theorem Shifts.invariant {Q : Nat → Server → Prop}
    (hq : ∀ (i : Nat) (x y : Server × Cluster), Server.Move W c.now x y → Q i x.1 → Q i y.1)
    (h : Shifts W c c') (hc : ∀ (i : Nat) (v : Server), c.servers[i]? = some v → Q i v) :
    ∀ (i : Nat) (v : Server), c'.servers[i]? = some v → Q i v := by
  have keep : ∀ x y, Relation.ReflTransGen (Shift W c.now) x y →
      (∀ (i : Nat) (v : Server), x.1[i]? = some v → Q i v) →
      ∀ (i : Nat) (v : Server), y.1[i]? = some v → Q i v := by
    intro x y hp hx
    induction hp with
    | refl => exact hx
    | tail _ hs ih =>
      cases hs with
      | @move vs k j w z hj hm =>
        intro i v hi
        simp only [Array.getElem?_setIfInBounds] at hi
        split at hi
        · rename_i e
          subst e
          split at hi
          · cases hi
            exact hq j _ _ hm (ih j w hj)
          · cases hi
        · exact ih i v hi
  exact keep _ _ h.path hc

theorem Shifts.kept (h : Shifts W c c') (hc : c.Kept) : c'.Kept :=
  h.invariant (Q := fun _ v => v.Kept) (fun _ _ _ hm hv => hm.kept hv) hc

/-! ## Calls, tickets and requests -/

theorem shifts_finish (c : Cell) (id : Nat) (r : Result) : Shifts W c (c.finish id r) := by
  unfold finish
  split <;> exact .of_eq rfl rfl rfl rfl rfl

theorem shifts_send (c : Cell) (x : Caller) (a : Addr) (q : Option Request) :
    Shifts W c (c.send x a q) := .of_eq rfl rfl rfl rfl rfl

theorem shifts_setClient (c : Cell) (i : Nat) (s : ClientSession.Step) :
    Shifts W c (c.setClient i s) := .of_eq rfl rfl rfl rfl rfl

theorem shifts_dropWaiter (c : Cell) (h : Holder) : Shifts W c (c.dropWaiter h) := by
  unfold dropWaiter
  split
  · exact .refl c
  · rename_i w _
    dsimp only
    split
    · exact .of_eq rfl rfl rfl rfl rfl
    · rename_i v hv
      have h₁ : Shifts W c { c with waiters := c.waiters.filter (·.holder ≠ h) } :=
        .of_eq rfl rfl rfl rfl rfl
      exact h₁.trans (shifts_setServer hv (Server.moves_abandon w.session w.ticket))

theorem shifts_dropFlight (c : Cell) (id : Nat) : Shifts W c (c.dropFlight id) := by
  have h₁ : Shifts W c { c with flights := c.flights.filter (·.id ≠ id) } :=
    .of_eq rfl rfl rfl rfl rfl
  exact h₁.trans (shifts_dropWaiter _ _)

theorem shifts_cancel (c : Cell) (x : Caller) : Shifts W c (c.cancel x) :=
  .foldl (fun c (f : Flight) => shifts_dropFlight c f.id) _ c

theorem shifts_setFlight (c : Cell) (f : Flight) : Shifts W c (c.setFlight f) :=
  .of_eq rfl rfl rfl rfl rfl

/-! ## Searches, programs and mail -/

theorem shifts_searchOn (c : Cell) (id : Nat) (name : Option String) (s : Search.Next) :
    Shifts W c (c.searchOn id name s) := by
  cases s with
  | ask s => exact .of_eq rfl rfl rfl rfl rfl
  | found s =>
    cases name with
    | some n =>
      unfold searchOn
      refine .trans ?_ (shifts_finish _ _ _)
      exact .of_eq rfl rfl rfl rfl rfl
    | none => exact .of_eq rfl rfl rfl rfl rfl
  | failed e =>
    cases name with
    | some n =>
      unfold searchOn
      refine .trans ?_ (shifts_finish _ _ _)
      exact .of_eq rfl rfl rfl rfl rfl
    | none => exact .of_eq rfl rfl rfl rfl rfl

theorem shifts_perform (c : Cell) (p : ProgramRun) : Shifts W c (c.perform p) := by
  unfold perform
  split
  · exact shifts_searchOn _ _ _ _
  · split
    · exact shifts_setClient _ _ _
    · exact .refl c
  · exact shifts_send _ _ _ _
  · exact .refl c
  · exact .refl c
  · exact .refl c
  · refine .trans ?_ (shifts_finish _ _ _)
    split <;> exact .of_eq rfl rfl rfl rfl rfl

theorem shifts_moveProgram (c : Cell) (p : ProgramRun) (m : Program.Move) :
    Shifts W c (c.moveProgram p m) := by
  unfold moveProgram
  refine .trans ?_ (shifts_perform _ _)
  exact .of_eq rfl rfl rfl rfl rfl

theorem shifts_openMail (c : Cell) (m : Mail) : Shifts W c (c.openMail m) := by
  unfold openMail
  split
  · exact shifts_send _ _ _ _
  · exact shifts_cancel _ _
  · split
    · exact .of_eq rfl rfl rfl rfl rfl
    · exact shifts_finish _ _ _
  · split
    · exact shifts_moveProgram _ _ _
    · exact .refl c

theorem shifts_deliver (c : Cell) (f : Flight) (d : Delivery) : Shifts W c (c.deliver f d) := by
  unfold deliver
  refine (shifts_dropFlight c f.id).trans ?_
  dsimp only
  split
  · exact shifts_finish _ _ _
  · split
    · exact shifts_searchOn _ _ _ _
    · exact .refl _
  · split
    · exact shifts_setClient _ _ _
    · exact .refl _
  · split <;> exact .of_eq rfl rfl rfl rfl rfl

/-! ## Requests at the servers -/

/-- A keep-alive with claims of this client is on its way. -/
def ClaimsOut (c : Cell) (x : Client) : Prop :=
  ∃ f ∈ c.flights, ∃ q, f.request = some q ∧ q.Claims x

/-- The server that answers at an address is there. -/
theorem server_of_host {a : Addr} {i : Nat} {v : Server}
    (h : (do
      let h ← c.hosts[a]?
      if h.up then
        let v ← c.servers[h.server]?
        return (h.server, v)
      none) = some (i, v)) :
    ∃ h, c.hosts[a]? = some h ∧ h.up = true ∧ h.server = i ∧ c.servers[i]? = some v := by
  obtain ⟨host, hh, h⟩ := Option.bind_eq_some_iff.1 h
  split at h
  · rename_i hu
    obtain ⟨w, hw, h⟩ := Option.bind_eq_some_iff.1 h
    cases h
    exact ⟨host, hh, hu, rfl, hw⟩
  · cases h

theorem shifts_reach (hk : c.Kept) (f : Flight) :
    Shifts (fun x => ∃ q, f.request = some q ∧ q.Claims x) c (c.reach f) := by
  unfold reach
  dsimp only
  split
  · exact shifts_deliver _ _ _
  · rename_i i v hs
    obtain ⟨_, -, -, -, hv⟩ := server_of_host hs
    split
    · exact shifts_deliver _ _ _
    · rename_i q hq
      have hm : Server.Moves (fun x => ∃ q, f.request = some q ∧ q.Claims x) c.now
          (v, c.cluster) (v.serve c.cluster c.now q).2 :=
        (Server.moves_serve (hk i v hv) q).mono fun x hx => ⟨q, hq, hx⟩
      revert hm
      rcases v.serve c.cluster c.now q with ⟨r | ⟨j, t⟩, v', k'⟩ <;> intro hm
      · exact (shifts_setServer hv hm).trans (shifts_deliver _ _ _)
      · refine (shifts_setServer hv hm).trans ?_
        exact .of_eq rfl rfl rfl rfl rfl

theorem shifts_arrive (hk : c.Kept) (f : Flight) :
    Shifts (fun x => ∃ q, f.request = some q ∧ q.Claims x) c (c.arrive f) := by
  unfold arrive
  split
  · exact shifts_reach hk f
  · rename_i m traps _
    dsimp only
    have h₁ : ∀ {W}, Shifts W c { c with traps } := .of_eq rfl rfl rfl rfl rfl
    have hk₁ : Kept { c with traps } := hk
    cases m with
    | refuse | reset | drop | reply => exact h₁.trans (shifts_deliver _ _ _)
    | dropAfter => exact h₁.trans (shifts_reach hk₁ { f with back := .lost })
    | cutBody code => exact h₁.trans (shifts_reach hk₁ { f with back := .cut code })
    | hang | delay => exact h₁.trans (shifts_setFlight _ _)

theorem shifts_flightStep? (hk : c.Kept) (h : c.flightStep? = some c') :
    Shifts c.ClaimsOut c c' := by
  obtain ⟨f, hf, h⟩ := List.exists_of_findSome?_eq_some h
  have hw : ∀ x, (∃ q, f.request = some q ∧ q.Claims x) → c.ClaimsOut x := fun x hx =>
    ⟨f, hf, hx⟩
  split at h
  · split at h
    · cases h
      exact (shifts_arrive hk f).mono hw
    · cases h
  · split at h
    · cases h
      exact (shifts_reach hk f).mono hw
    · cases h
  · cases h
  · cases h

/-! ## What servers do by themselves -/

theorem shifts_release (c : Cell) (w : Waiter) (r : Except Error KeepAlive) :
    Shifts W c (c.release w r) := by
  have h₁ : Shifts W c { c with waiters := c.waiters.filter (·.holder ≠ w.holder) } :=
    .of_eq rfl rfl rfl rfl rfl
  unfold release
  dsimp only
  split
  · exact h₁.trans (shifts_finish _ _ _)
  · exact h₁.trans (shifts_finish _ _ _)
  · split
    · exact h₁.trans (shifts_deliver _ _ _)
    · exact h₁

theorem shifts_sessionStepAt? {i j : Nat} {v : Server} (hv : c.servers[i]? = some v)
    (h : c.sessionStepAt? i v j = some c') : Shifts W c c' := by
  unfold sessionStepAt? at h
  split at h
  · rename_i hl
    cases h
    exact shifts_setServer hv (Server.moves_look? hl)
  · split at h
    · cases h
    · rename_i ha
      have h₁ : Shifts W c (c.setServer i _ c.cluster) :=
        shifts_setServer hv (Server.moves_answer? ha)
      dsimp only at h
      split at h
      · cases h
        exact h₁.trans (shifts_release _ _ _)
      · cases h
        exact h₁

theorem exists_sessionStepAt? (h : c.sessionStep? = some c') :
    ∃ i v j, c.servers[i]? = some v ∧ c.sessionStepAt? i v j = some c' := by
  obtain ⟨i, -, h⟩ := List.exists_of_findSome?_eq_some h
  obtain ⟨v, hv, h⟩ := Option.bind_eq_some_iff.1 h
  obtain ⟨j, -, h⟩ := List.exists_of_findSome?_eq_some h
  exact ⟨i, v, j, hv, h⟩

theorem shifts_sessionStep? (h : c.sessionStep? = some c') : Shifts W c c' := by
  obtain ⟨i, v, j, hv, h⟩ := exists_sessionStepAt? h
  exact shifts_sessionStepAt? hv h

/-! ## What the others do -/

theorem shifts_mailStep? (h : c.mailStep? = some c') : Shifts W c c' := by
  unfold mailStep? at h
  split at h
  · cases h
  · rename_i m rest _
    cases h
    refine .trans ?_ (shifts_openMail _ m)
    exact .of_eq rfl rfl rfl rfl rfl

theorem shifts_clientStep? (h : c.clientStep? = some c') : Shifts W c c' := by
  obtain ⟨i, -, h⟩ := List.exists_of_findSome?_eq_some h
  obtain ⟨s, -, h⟩ := Option.bind_eq_some_iff.1 h
  obtain ⟨st, -, h⟩ := Option.bind_eq_some_iff.1 h
  cases h
  exact shifts_setClient _ _ _

theorem shifts_expiryStep? (h : c.expiryStep? = some c') : Shifts W c c' := by
  obtain ⟨p, -, h⟩ := List.exists_of_findSome?_eq_some h
  split at h
  · split at h
    · cases h
      exact shifts_finish _ _ _
    · cases h
  · cases h

theorem shifts_programStep? (h : c.programStep? = some c') : Shifts W c c' := by
  obtain ⟨p, -, h⟩ := List.exists_of_findSome?_eq_some h
  split at h
  · split at h
    · cases h
      exact shifts_moveProgram _ _ _
    · cases h
  · split at h
    · cases h
      exact shifts_moveProgram _ _ _
    · cases h
  · cases h

/-- What can happen at an instant. -/
theorem next?_cases (h : c.next? = some c') :
    c.mailStep? = some c' ∨ c.sessionStep? = some c' ∨ c.flightStep? = some c' ∨
      c.clientStep? = some c' ∨ c.expiryStep? = some c' ∨ c.programStep? = some c' := by
  unfold next? at h
  simp only [Option.orElse_eq_orElse, Option.orElse_eq_or, Option.or_eq_some_iff] at h
  rcases h with h | ⟨-, h | ⟨-, h | ⟨-, h | ⟨-, h | ⟨-, h⟩⟩⟩⟩⟩
  all_goals simp only [h, true_or, or_true]

/-- Whatever happens by itself, the servers only move. -/
theorem shifts_next? (hk : c.Kept) (h : c.next? = some c') : Shifts c.ClaimsOut c c' := by
  rcases next?_cases h with h | h | h | h | h | h
  · exact shifts_mailStep? h
  · exact shifts_sessionStep? h
  · exact shifts_flightStep? hk h
  · exact shifts_clientStep? h
  · exact shifts_expiryStep? h
  · exact shifts_programStep? h

/-! ## What is done from outside -/

theorem shifts_park (c : Cell) (i : Nat) (h : Handled KeepAlive) (x : Holder) (id : Nat)
    (r : Except Error KeepAlive → Result) : Shifts W c (c.park i h x id r) := by
  unfold park
  split
  · exact shifts_finish _ _ _
  · exact .of_eq rfl rfl rfl rfl rfl

theorem server_of_node {n : Node} {i : Nat} {v : Server} (h : c.serverOf? n = some (i, v)) :
    c.servers[i]? = some v := by
  unfold serverOf? at h
  obtain ⟨seat, -, h⟩ := Option.bind_eq_some_iff.1 h
  obtain ⟨w, hw, h⟩ := Option.bind_eq_some_iff.1 h
  cases h
  exact hw

theorem shifts_beginHttp (hk : c.Kept) (id : Nat) {i : Nat} {v : Server}
    (hv : c.servers[i]? = some v) (m : Http.Message) :
    Shifts (fun x => ∃ q, Http.read m = .ok (.call q) ∧ q.Claims x) c (c.beginHttp id i v m) := by
  unfold beginHttp
  split
  · exact shifts_finish _ _ _
  · exact shifts_finish _ _ _
  · rename_i q hq
    have hm : Server.Moves (fun x => ∃ q, Http.read m = .ok (.call q) ∧ q.Claims x) c.now
        (v, c.cluster) (v.serve c.cluster c.now q).2 :=
      (Server.moves_serve (hk i v hv) q).mono fun x hx => ⟨q, hq, hx⟩
    revert hm
    rcases v.serve c.cluster c.now q with ⟨r | ⟨j, t⟩, v', k'⟩ <;> intro hm
    · exact (shifts_setServer hv hm).trans (shifts_finish _ _ _)
    · refine (shifts_setServer hv hm).trans ?_
      exact .of_eq rfl rfl rfl rfl rfl

theorem shifts_beginProgram (c : Cell) (tag : String) (args : List String) :
    Shifts W c (c.beginProgram tag args) := by
  have h₁ : Shifts W c (c.beginCall tag .program).2 := .of_eq rfl rfl rfl rfl rfl
  unfold beginProgram
  dsimp only
  split
  · exact h₁.trans (shifts_finish _ _ _)
  · refine h₁.trans (.trans ?_ (shifts_perform _ _))
    exact .of_eq rfl rfl rfl rfl rfl

end Cell

/-- The step brings a keep-alive with claims of the client to a server. -/
def CallStep.Claims : CallStep → Client → Prop
  | .managerKeepAlive _ y (some _), x => y = x
  | .http _ m, x => ∃ q, Http.read m = .ok (.call q) ∧ q.Claims x
  | _, _ => False

namespace Cell

variable {W : Client → Prop} {c c' : Cell}

theorem shifts_actCall (hk : c.Kept) (tag : String) (s : CallStep) :
    Shifts s.Claims c (c.actCall tag s).2 := by
  cases s with
  | managerKeepAlive n x claimed =>
    simp only [actCall]
    split
    · exact .refl c
    · rename_i i v hs
      have hv := server_of_node hs
      have hm : Server.Moves (CallStep.managerKeepAlive n x claimed).Claims c.now (v, c.cluster)
          (v.keepAlive c.cluster x claimed c.now).2 := by
        refine Server.moves_keepAlive (hk i v hv) fun hc => ?_
        obtain ⟨d, rfl⟩ := Option.isSome_iff_exists.1 hc
        rfl
      have h₁ : Shifts (CallStep.managerKeepAlive n x claimed).Claims c
          (c.beginCall tag .direct).2 := .of_eq rfl rfl rfl rfl rfl
      have h₂ := shifts_setServer (c := (c.beginCall tag .direct).2) hv hm
      exact h₁.trans (h₂.trans (shifts_park _ _ _ _ _ _))
  | sessionKeepAlive handle =>
    simp only [actCall]
    split
    · exact .refl c
    · rename_i i j _
      split
      · exact .refl c
      · rename_i v hv
        have h₁ : Shifts (CallStep.sessionKeepAlive handle).Claims c
            (c.beginCall tag .direct).2 := .of_eq rfl rfl rfl rfl rfl
        have h₂ := shifts_setServer (c := (c.beginCall tag .direct).2)
          (W := (CallStep.sessionKeepAlive handle).Claims) hv (Server.moves_park j)
        exact h₁.trans (h₂.trans (shifts_park _ _ _ _ _ _))
  | http n m =>
    simp only [actCall]
    split
    · exact .refl c
    · rename_i i v hs
      have h₁ : Shifts (CallStep.http n m).Claims c (c.beginCall tag .http).2 :=
        .of_eq rfl rfl rfl rfl rfl
      exact h₁.trans (shifts_beginHttp (c := (c.beginCall tag .http).2) hk _ (server_of_node hs) m)
  | rpc addr q => exact .of_eq rfl rfl rfl rfl rfl
  | connect name client servers lease =>
    have h₁ : Shifts (CallStep.connect name client servers lease).Claims c
        (c.beginCall tag .search).2 := .of_eq rfl rfl rfl rfl rfl
    exact h₁.trans (shifts_searchOn _ _ _ _)
  | lock name op =>
    simp only [actCall]
    split
    · exact .refl c
    · split
      · exact .refl c
      · exact .of_eq rfl rfl rfl rfl rfl
  | awaitExpiry name =>
    simp only [actCall]
    split
    · exact .refl c
    · exact .of_eq rfl rfl rfl rfl rfl
  | program args => exact shifts_beginProgram _ _ _

theorem shifts_abandonLock (c : Cell) (i id : Nat) : Shifts W c (c.abandonLock i id) := by
  unfold abandonLock
  split
  · exact shifts_setClient _ _ _
  · exact .refl c

theorem shifts_abandon (c : Cell) (p : PendingCall) : Shifts W c (c.abandon p) := by
  have h₁ : Shifts W c { c with calls := c.calls.filter (·.id ≠ p.id) } :=
    .of_eq rfl rfl rfl rfl rfl
  unfold abandon
  dsimp only
  refine h₁.trans ?_
  split
  · exact shifts_dropWaiter _ _
  · exact shifts_dropWaiter _ _
  · exact shifts_cancel _ _
  · refine .trans ?_ (shifts_cancel _ _)
    exact .of_eq rfl rfl rfl rfl rfl
  · exact shifts_abandonLock _ _ _
  · exact .refl _
  · have drop : ∀ d : Cell, Shifts W d
        { ((d.dropSearch p.id).cancel (.search p.id)).cancel (.program p.id) with
          programs := (((d.dropSearch p.id).cancel (.search p.id)).cancel
            (.program p.id)).programs.filter (·.id ≠ p.id) } := fun d => by
      have h₁ : Shifts W d (d.dropSearch p.id) := .of_eq rfl rfl rfl rfl rfl
      have h₂ := (h₁.trans (shifts_cancel _ (.search p.id))).trans (shifts_cancel _ (.program p.id))
      exact h₂.trans (.of_eq rfl rfl rfl rfl rfl)
    refine .trans ?_ (drop _)
    split
    · exact shifts_abandonLock _ _ _
    · exact .refl _

theorem shifts_abort (c : Cell) (tag : String) : Shifts W c (c.abort tag).2 := by
  unfold abort
  split
  · exact .refl c
  · dsimp only
    split
    · exact .of_eq rfl rfl rfl rfl rfl
    · refine .trans ?_ (shifts_abandon _ _)
      exact .of_eq rfl rfl rfl rfl rfl

theorem shifts_hangUp (c : Cell) (a : Addr) : Shifts W c (c.hangUp a) :=
  .foldl (fun c (f : Flight) => shifts_deliver c f .closed) _ c

theorem shifts_actManager (hk : c.Kept) {i : Nat} {v : Server} (hv : c.servers[i]? = some v)
    (s : ManagerStep) :
    Shifts (fun x => ∃ y, s = .terminate y ∧ y = x) c (c.actManager i v s).2 := by
  cases s with
  | create x h =>
    simp only [actManager]
    split
    · exact .refl c
    · rename_i hc
      exact (shifts_setServer hv (Server.moves_create hc)).trans (.of_eq rfl rfl rfl rfl rfl)
  | live x h =>
    simp only [actManager]
    split
    · exact .refl c
    · exact .of_eq rfl rfl rfl rfl rfl
  | find x h =>
    simp only [actManager]
    split
    · exact .refl c
    · exact .of_eq rfl rfl rfl rfl rfl
  | terminate x =>
    exact shifts_setServer hv (Server.moves_terminateClient (hk i v hv) ⟨x, rfl, rfl⟩)

theorem shifts_actSession {i j : Nat} {v : Server} {s : Session} (hv : c.servers[i]? = some v)
    (hs : v.sessions[j]? = some s) (step : SessionStep) :
    Shifts (fun x => (step = .refresh ∨ step = .terminate) ∧ s.client = x) c
      (c.actSession i j v s step).2 := by
  have call : ∀ op, Shifts (fun x => (step = .refresh ∨ step = .terminate) ∧ s.client = x) c
      (c.setServer i { v.setSession j (s.call v.store (v.locks c.cluster) op).2.1 with
        slots := (s.call v.store (v.locks c.cluster) op).2.2.slots }
        (s.call v.store (v.locks c.cluster) op).2.2.store) := fun op => by
    have hm : Server.Moves (fun x => (step = .refresh ∨ step = .terminate) ∧ s.client = x) c.now
        (v, c.cluster) (v.onSession c.cluster j () fun s l => ((), (s.call v.store l op).2)).2 :=
      Server.moves_onSession j () op fun _ _ => rfl
    rw [Server.onSession_of_some hs] at hm
    exact shifts_setServer hv hm
  cases step with
  | openLock p => exact call (.openLock p)
  | acquire p m => exact call (.acquireLock p m)
  | release p => exact call (.releaseLock p)
  | delete p => exact call (.deleteLock p)
  | refresh =>
    unfold actSession Session.refresh?
    dsimp only
    by_cases he : s.ended = true
    · rw [if_pos he]
      exact .refl c
    · rw [if_neg he]
      exact shifts_setServer hv (.single (.refresh ⟨Or.inl rfl, rfl⟩ hs (by simpa using he)))
  | terminate =>
    refine shifts_setServer hv (Server.moves_terminate fun t ht => ?_)
    rw [hs] at ht
    cases ht
    exact ⟨Or.inr rfl, rfl⟩
  | info => exact .refl c

end Cell

/-- Steps that leave the lock tables to the servers and every server in its place; sleeping
is the passing of time. -/
def CellStep.Ordinary : CellStep → Prop
  | .table .. | .addNode .. | .restart _ | .sleep _ => False
  | _ => True

namespace Cell

variable {c : Cell}

/-- From `c` to `c'` the store or the leader are set at most, which gives `c₁`; after that the
servers move. -/
structure Sets (c c₁ c' : Cell) : Prop where
  servers : c₁.servers = c.servers
  lease : c₁.lease = c.lease
  shifts : Shifts (fun _ => True) c₁ c'
  cluster : c₁.cluster = c.cluster ∨ c₁.cluster.leader = none ∨ c₁ = c'

theorem act_sets (hk : c.Kept) {s : CellStep} (hs : s.Ordinary) :
    ∃ c₁, Sets c c₁ (c.act s).2 := by
  have moves : ∀ {c' : Cell} {W : Client → Prop}, Shifts W c c' → ∃ c₁, Sets c c₁ c' :=
    fun h => ⟨c, rfl, rfl, h.mono fun _ _ => trivial, Or.inl rfl⟩
  have set : ∀ {c' : Cell}, c'.servers = c.servers → c'.lease = c.lease → ∃ c₁, Sets c c₁ c' :=
    fun hs hl => ⟨_, hs, hl, .refl _, Or.inr (Or.inr rfl)⟩
  have up : ∀ (c : Cell) a b, (c.setUp a b).servers = c.servers ∧ (c.setUp a b).lease = c.lease ∧
      (c.setUp a b).cluster = c.cluster := fun c a b => by
    unfold setUp
    split <;> exact ⟨rfl, rfl, rfl⟩
  cases s with
  | sleep | table | addNode | restart => exact hs.elim
  | abort tag => exact moves (W := fun _ => True) (shifts_abort c tag)
  | call tag s => exact moves (shifts_actCall hk tag s)
  | elect | stepDown | follow => exact set rfl rfl
  | cluster | latency | requests | trap | clearTraps | printed =>
    exact moves (W := fun _ => True) (.of_eq rfl rfl rfl rfl rfl)
  | store n s =>
    have same : (c.act (.store n s)).2.servers = c.servers ∧
        (c.act (.store n s)).2.lease = c.lease := by
      simp only [act, onServer]
      split
      · exact ⟨rfl, rfl⟩
      · cases s <;> simp only [actStore, actStore.write] <;> (try split) <;> exact ⟨rfl, rfl⟩
    exact set same.1 same.2
  | manager n s =>
    simp only [act, onServer]
    split
    · exact moves (W := fun _ => True) (.refl c)
    · rename_i i v hv
      exact moves (shifts_actManager hk (server_of_node hv) s)
  | session x s =>
    simp only [act]
    repeat' split
    · exact moves (W := fun _ => True) (.refl c)
    · exact moves (W := fun _ => True) (.refl c)
    · exact moves (W := fun _ => True) (.refl c)
    · rename_i i j _ v hv _ t ht
      exact moves (shifts_actSession hv ht s)
  | down n =>
    simp only [act, onSeat]
    split
    · exact moves (W := fun _ => True) (.refl c)
    · rename_i seat _
      obtain ⟨hs, hl, hk⟩ := up c seat.addr false
      exact ⟨_, hs, hl, shifts_hangUp _ _, Or.inl hk⟩
  | up n =>
    simp only [act, onSeat]
    split
    · exact moves (W := fun _ => True) (.refl c)
    · rename_i seat _
      obtain ⟨hs, hl, hk⟩ := up c seat.addr true
      exact ⟨_, hs, hl, .refl _, Or.inl hk⟩
  | crash n =>
    simp only [act, onSeat]
    split
    · exact moves (W := fun _ => True) (.refl c)
    · rename_i seat _
      split
      · obtain ⟨hs, hl, hk⟩ := up { c with cluster := c.cluster.stepDown } seat.addr false
        refine ⟨_, hs, hl, shifts_hangUp _ _, Or.inr (Or.inl ?_)⟩
        rw [hk]
        rfl
      · obtain ⟨hs, hl, hk⟩ := up c seat.addr false
        exact ⟨_, hs, hl, shifts_hangUp _ _, Or.inl hk⟩
  | close name =>
    simp only [act]
    split
    · exact moves (W := fun _ => True) (.refl c)
    · exact moves (W := fun _ => True) (.of_eq rfl rfl rfl rfl rfl)

end Cell

end LockCell
