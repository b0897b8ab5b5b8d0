import LockCell.Proofs.Server.Draining

/-
  LockCell.Proofs.Server.Overtaking — what the end of a session takes, and a lock that is
  deleted under it.

  As long as no lock is deleted that an end has yet to let go, an end takes no more than its
  session's own, and the table has what is listed (`takes_own_unless_cut`).

  A session that takes or releases a lock goes by its own list, but one that deletes a lock
  asks only the table, which says that the client owns it. So the lock that an old session of
  the client has yet to let go may be deleted with the client's next session, though that does
  not list it, and with no other (`strays_of_cuts`). Then the next session may open the lock
  again and take it (`exists_retaken`), and the end of the old one, which goes by the name of
  the client, takes it away (`exists_broken`).
-/

namespace LockCell

namespace Session

variable (n : Node) {s : Session} {l : Locks Cluster} {op : LockOp} {p : Path}

/-- Only a delete takes a lock out of the store, and only for its one owner. -/
theorem deletes_of_call (h : l.slots.Sound) (hp : p ∈ l.store.contents)
    (hn : p ∉ (s.call (Cluster.storeOf n) l op).2.2.store.contents) :
    op = .deleteLock p ∧ s.ended = false ∧ l.slots.Holds s.client p .exclusive := by
  cases hs : s.ended with
  | true =>
    rw [call_of_ended n hs] at hn
    exact absurd hp hn
  | false =>
    cases op with
    | openLock q =>
      simp only [call, openLock, whenLive, hs, Bool.false_eq_true, if_false] at hn
      exact absurd ((Locks.mem_openLock n l q p).2 (Or.inl hp)) hn
    | acquireLock q m =>
      have hst := Locks.store_acquire n h s.client q m
      simp only [call, acquire, whenLive, hs, Bool.false_eq_true, if_false] at hn
      split at hn
      · exact absurd hp hn
      · revert hst hn
        rcases l.acquire (Cluster.storeOf n) s.client q m with ⟨_ | _ | _, l'⟩ <;>
          exact fun hst hn => absurd (hst ▸ hp) hn
    | releaseLock q =>
      have hst := Locks.store_release n h s.client q
      simp only [call, release, whenLive, hs, Bool.false_eq_true, if_false] at hn
      split at hn
      · revert hst hn
        rcases l.release (Cluster.storeOf n) s.client q with ⟨_ | _, l'⟩ <;>
          exact fun hst hn => absurd (hst ▸ hp) hn
      · exact absurd hp hn
    | deleteLock q =>
      have hm := Locks.mem_delete n (l := l) s.client q p
      have hok := Locks.delete_eq_ok_iff n (l := l) s.client q
      simp only [call, delete, whenLive, hs, Bool.false_eq_true, if_false] at hn
      revert hm hok hn
      rcases l.delete (Cluster.storeOf n) s.client q with ⟨_ | ⟨⟩, l'⟩ <;> intro hm hok hn
      · exact absurd (hm.2 ⟨hp, by simp⟩) hn
      · by_cases e : p = q
        · subst e
          exact ⟨rfl, rfl, (hok.1 rfl).1⟩
        · exact absurd (hm.2 ⟨hp, fun h => e h.2⟩) hn

/-! ## Calls that are granted -/

theorem call_deleteLock (hs : s.ended = false)
    (hok : (l.delete (Cluster.storeOf n) s.client p).1 = .ok ()) :
    (s.call (Cluster.storeOf n) l (.deleteLock p)).2 =
      ({ s with held := s.held.erase p }, (l.delete (Cluster.storeOf n) s.client p).2) := by
  simp only [call, delete, whenLive, hs]
  revert hok
  rcases l.delete (Cluster.storeOf n) s.client p with ⟨_ | ⟨⟩, l'⟩ <;> intro hok
  · cases hok
  · rfl

theorem call_openLock (hs : s.ended = false) :
    (s.call (Cluster.storeOf n) l (.openLock p)).2 = (s, (l.openLock (Cluster.storeOf n) p).2) := by
  simp only [call, openLock, whenLive, hs]
  rfl

theorem call_acquireLock {m : Mode} (hs : s.ended = false) (hp : p ∉ s.held)
    (hok : (l.acquire (Cluster.storeOf n) s.client p m).1 = .ok true) :
    (s.call (Cluster.storeOf n) l (.acquireLock p m)).2 =
      ({ s with held := s.held.insert p m }, (l.acquire (Cluster.storeOf n) s.client p m).2) := by
  simp only [call, acquire, whenLive, hs, hp]
  revert hok
  rcases l.acquire (Cluster.storeOf n) s.client p m with ⟨_ | _ | _, l'⟩ <;> intro hok
  · cases hok
  · cases hok
  · rfl

end Session

namespace Draining

variable {d d' : Draining} {c : Client} {p : Path} {i j : Nat} {m : Mode} {s s' : Session}
  {l : Locks Cluster}

theorem call_eq {op : LockOp} (hi : d.server.sessions[i]? = some s)
    (he : (s.call (Cluster.storeOf d.server.node) (d.server.locks d.cluster) op).2 = (s', l)) :
    d.call i op = d.moved (d.server.after i s' l) := by
  unfold call
  rw [Server.onSession_of_some hi]
  have he : (s.call d.server.store (d.server.locks d.cluster) op).2 = (s', l) := he
  rw [he]
  rfl

/-- The client deletes the lock with a live session that does not list it. -/
def Strays (d d' : Draining) (c : Client) (p : Path) : Prop :=
  ∃ i s, d.server.sessions[i]? = some s ∧ s.client = c ∧ s.ended = false ∧ p ∉ s.held ∧
    d' = d.call i (.deleteLock p)

/-- A lock that an end has yet to let go is deleted only by its client, with a session that does
not list it. -/
theorem strays_of_cuts (hd : d.Proper) (h : d.Placed c p) (hs : Step d d') (hcut : d.Cuts d' c p) :
    d.Strays d' c p := by
  obtain ⟨⟨j, ho⟩, hp, hp'⟩ := hcut
  obtain ⟨⟨m, hm⟩, -, hnl, -⟩ := h.of_owes ho
  cases hs with
  | mark i => exact absurd hp (cluster_mark d i ▸ hp')
  | release i => exact absurd hp (cluster_release hd.sound i ▸ hp')
  | move hmv =>
    cases hmv with
    | begin | tend | refresh => exact absurd hp hp'
    | members _ hc => exact absurd (hc ▸ hp) hp'
    | @expire _ _ i | @terminate _ _ i =>
      have ht : (d.moved (d.server.terminate d.cluster i)).cluster = d.cluster :=
        Server.cluster_terminate hd.sound d.cluster i
      exact absurd hp (ht ▸ hp')
    | @call _ _ i s op hi =>
      have hp' : p ∉ (d.call i op).cluster.contents := hp'
      rw [call_eq hi rfl] at hp'
      obtain ⟨rfl, hl, hx⟩ := Session.deletes_of_call d.server.node hd.sound hp hp'
      obtain rfl : c = s.client := hx.eq_of_exclusive hd.sound hm
      refine ⟨i, s, hi, rfl, hl, fun hq => ?_, rfl⟩
      obtain ⟨k, hk⟩ := Dict.getElem?_of_mem hq
      exact hnl i k ⟨s, hi, rfl, hk⟩

/-! ## What an end takes -/

/-- If the end of a session takes the lock from the client now, that session acquired it. -/
def TakesOwn (d : Draining) (c : Client) (p : Path) : Prop :=
  ∀ i, d.server.Owner c p → ¬ (d.release i).server.Owner c p → d.credit c p = some i

/-- The table has the lock as the client's live sessions list it. -/
def Backed (d : Draining) (c : Client) (p : Path) : Prop :=
  ∀ (i : Nat) (s : Session), d.server.sessions[i]? = some s → s.client = c → s.live = true →
    ∀ m, s.held[p]? = some m → d.server.slots.Holds c p m

theorem Placed.takesOwn (h : d.Placed c p) (hd : d.Proper) : d.TakesOwn c p := by
  intro i hn hn'
  rcases release_cases d i with hr | ⟨s, q, ps, hi, hq⟩
  · rw [hr] at hn'
    exact absurd hn hn'
  · rw [release_of_left hi hq] at hn'
    obtain ⟨m, hm⟩ := hn
    by_cases e : c = s.client ∧ p = q
    · obtain ⟨rfl, rfl⟩ := e
      exact (h.of_owes ⟨s, hi, rfl, hq ▸ List.mem_cons_self⟩).2.1
    · refine absurd ⟨m, ?_⟩ hn'
      exact (Locks.holds_release d.server.node (l := d.server.locks d.cluster) hd.sound s.client
        c q p m).2 ⟨hm, fun h => e h.2⟩

theorem Placed.backed (h : d.Placed c p) (hd : d.Proper) : d.Backed c p :=
  fun _ s hi hc _ _ hm => (h.of_lists hd ⟨s, hi, hc, hm⟩).1

theorem proper_placed_of_steps (hd : d.Proper) (h : d.Placed c p)
    (hs : Relation.ReflTransGen (fun d d' => Step d d' ∧ ¬ d.Cuts d' c p) d d') :
    d'.Proper ∧ d'.Placed c p := by
  induction hs with
  | refl => exact ⟨hd, h⟩
  | tail _ hs ih => exact ⟨ih.1.step hs.1, ih.2.step ih.1 hs.1 hs.2⟩

/-- **The end of a session takes what is its own, unless a lock is deleted under it.** At a
leader sessions come to their ends one lock at a time, while anything else is done there. In
every state, if the lock `p` was never deleted while the end of a session of `c` had yet to let
it go, no end takes `p` from `c` but that of the session that acquired it, and what a live
session of `c` lists of `p` is what the table has. If the next step deletes `p` like that, it is
a call of a session of `c` that does not list `p`. -/
theorem takes_own_unless_cut (listen : Addr) (lease : LeaseConfig) {n : Node} {k : Cluster}
    (hl : k.leads n = true) {d : Draining} {c : Client} {p : Path}
    (hs : Relation.ReflTransGen (fun d d' => Step d d' ∧ ¬ d.Cuts d' c p)
      (fresh n listen lease k) d) :
    d.TakesOwn c p ∧ d.Backed c p ∧ ∀ d', Step d d' → d.Cuts d' c p → d.Strays d' c p := by
  obtain ⟨hd, h⟩ :=
    proper_placed_of_steps (proper_fresh listen lease hl) (placed_fresh n listen lease k c p) hs
  exact ⟨h.takesOwn hd, h.backed hd, fun d' => strays_of_cuts hd h⟩

/-- A client takes a lock, its session is marked, and it begins another one. -/
def overtaken : Draining :=
  let d := fresh "a" "a:1" .fast (Cluster.empty.elect "a")
  let d := d.moved (d.server.push "x" 0, d.cluster)
  let d := ((d.call 0 (.openLock "L")).call 0 (.acquireLock "L" .exclusive)).mark 0
  d.moved (d.server.push "x" 0, d.cluster)

theorem step_begin (d : Draining) (c : Client)
    (h : (d.server.session? c).all (fun x => x.2.ended) = true) :
    Step d (d.moved (d.server.push c 0, d.cluster)) := by
  refine @Step.move d 0 _ (.begin c fun i s hs => ?_)
  rw [hs] at h
  exact h

/-- A lock that was not there before, or is there after, has not been deleted. -/
theorem not_cuts (h : p ∉ d.cluster.contents ∨ p ∈ d'.cluster.contents) : ¬ d.Cuts d' c p :=
  fun hc => h.elim (fun h => h hc.2.1) hc.2.2

theorem quiet_overtaken :
    Relation.ReflTransGen (fun d d' => Step d d' ∧ ¬ d.Cuts d' "x" "L")
      (fresh "a" "a:1" .fast (Cluster.empty.elect "a")) overtaken :=
  Relation.ReflTransGen.refl
    |>.tail ⟨step_begin _ "x" (by decide +kernel), not_cuts (.inl (by decide +kernel))⟩
    |>.tail ⟨step_call _ 0 (.openLock "L"), not_cuts (.inl (by decide +kernel))⟩
    |>.tail ⟨step_call _ 0 (.acquireLock "L" .exclusive), not_cuts (.inr (by decide +kernel))⟩
    |>.tail ⟨.mark _ 0, not_cuts (.inr (by decide +kernel))⟩
    |>.tail ⟨step_begin _ "x" (by decide +kernel), not_cuts (.inr (by decide +kernel))⟩

/-- The new session cannot have the lock until the end of the old one has let it go. -/
theorem takes_own_of_overtaken :
    let d := ((overtaken.call 1 (.acquireLock "L" .exclusive)).release 0).call 1
      (.acquireLock "L" .exclusive)
    (Cluster.empty.elect "a").leads "a" = true ∧ d.TakesOwn "x" "L" ∧ d.Backed "x" "L" ∧
      ∀ d', Step d d' → d.Cuts d' "x" "L" → d.Strays d' "x" "L" :=
  ⟨by decide, takes_own_unless_cut "a:1" .fast (by decide) <| quiet_overtaken
    |>.tail ⟨step_call _ 1 (.acquireLock "L" .exclusive), not_cuts (.inr (by decide +kernel))⟩
    |>.tail ⟨.release _ 0, not_cuts (.inr (by decide +kernel))⟩
    |>.tail ⟨step_call _ 1 (.acquireLock "L" .exclusive), not_cuts (.inr (by decide +kernel))⟩⟩

/-! ## What a delete does to it -/

/-- A call of the session of that number has made `s'` of it. -/
structure Granted (d : Draining) (i : Nat) (s' : Session) (d' : Draining) : Prop where
  step : Step d d'
  left : d'.left = d.left
  registry : d'.server.registry = d.server.registry
  sessions : ∀ j, d'.server.sessions[j]? = if j = i then some s' else d.server.sessions[j]?

theorem granted_call {op : LockOp} (hi : d.server.sessions[i]? = some s)
    (he : (s.call (Cluster.storeOf d.server.node) (d.server.locks d.cluster) op).2 = (s', l)) :
    d.Granted i s' (d.call i op) ∧ (d.call i op).server.slots = l.slots ∧
      (d.call i op).cluster = l.store := by
  have hs := step_call d i op
  rw [call_eq hi he] at hs ⊢
  exact ⟨⟨hs, rfl, rfl, sessions_moved_after hi s' l⟩, rfl, rfl⟩

theorem Granted.self (h : d.Granted i s' d') : d'.server.sessions[i]? = some s' :=
  (h.sessions i).trans (if_pos rfl)

theorem Granted.other (h : d.Granted i s' d') (hj : j ≠ i) :
    d'.server.sessions[j]? = d.server.sessions[j]? :=
  (h.sessions j).trans (if_neg hj)

theorem exists_deleted (hd : d.Proper) (hi : d.server.sessions[i]? = some s)
    (hl : s.ended = false) (hx : d.server.slots.Holds s.client p .exclusive) :
    ∃ d', d.Granted i { s with held := s.held.erase p } d' ∧
      ∀ e k, ¬ d'.server.slots.Holds e p k := by
  have hok := (Locks.delete_eq_ok_iff d.server.node (l := d.server.locks d.cluster)
    s.client p).2 ⟨hx, hd.stored _ _ ⟨_, hx⟩, hd.leads⟩
  obtain ⟨hg, hslots, -⟩ := granted_call hi (Session.call_deleteLock _ hl hok)
  refine ⟨_, hg, fun e k hk => ?_⟩
  rw [hslots] at hk
  exact ((Locks.holds_delete _ s.client e p p k).1 hk).2 ⟨hok, rfl⟩

theorem exists_opened (hd : d.Proper) (hi : d.server.sessions[i]? = some s)
    (hl : s.ended = false) (hn : ∀ e k, ¬ d.server.slots.Holds e p k) :
    ∃ d', d.Granted i s d' ∧ p ∈ d'.cluster.contents ∧
      ∀ e k, ¬ d'.server.slots.Holds e p k := by
  obtain ⟨hg, hslots, hstore⟩ := granted_call hi (Session.call_openLock _ (p := p) hl)
  refine ⟨_, hg, ?_, fun e k hk => ?_⟩
  · rw [hstore]
    exact (Locks.mem_openLock _ _ p p).2 (Or.inr ⟨hd.leads, rfl⟩)
  · rw [hslots] at hk
    exact hn e k ((Locks.holds_openLock _ _ e p p k).1 hk).1

theorem exists_acquired (hd : d.Proper) (hi : d.server.sessions[i]? = some s)
    (hl : s.ended = false) (hp : p ∉ s.held) (hc : p ∈ d.cluster.contents)
    (hn : ∀ e k, ¬ d.server.slots.Holds e p k) :
    ∃ d', d.Granted i { s with held := s.held.insert p .exclusive } d' ∧
      d'.credit s.client p = some i ∧ d'.server.slots.Holds s.client p .exclusive := by
  have hok := (Locks.acquire_eq_true_iff d.server.node (l := d.server.locks d.cluster)
    hd.sound s.client p .exclusive).2 ⟨rfl, hc, hn s.client, Or.inl hn⟩
  obtain ⟨hg, hslots, -⟩ := granted_call hi (Session.call_acquireLock _ hl hp hok)
  have hx : (d.call i (.acquireLock p .exclusive)).server.slots.Holds s.client p .exclusive := by
    rw [hslots]
    exact (Locks.holds_acquire _ hd.sound s.client s.client p p .exclusive .exclusive).2
      (Or.inr ⟨hok, rfl, rfl, rfl⟩)
  refine ⟨_, hg, ?_, hx⟩
  calc (d.call i (.acquireLock p .exclusive)).credit s.client p
      = (d.call i (.acquireLock p .exclusive)).server.registry[s.client]? :=
        credit_moved_of_not_owner (fun ho => ho.elim (hn _)) ⟨_, hx⟩
    _ = d.server.registry[s.client]? := by rw [hg.registry]
    _ = some i := hd.newest i s hi hl

/-- Whoever has a lock for itself may delete it, open it again and take it, even if its session
does not list it. After that the lock is that session's. -/
theorem exists_retaken (hd : d.Proper) (hi : d.server.sessions[i]? = some s)
    (hl : s.ended = false) (hx : d.server.slots.Holds s.client p .exclusive) :
    ∃ d', Steps d d' ∧ d'.left = d.left ∧ d'.credit s.client p = some i ∧
      d'.Lists i s.client p .exclusive ∧ d'.server.slots.Holds s.client p .exclusive ∧
      ∀ j, j ≠ i → d'.server.sessions[j]? = d.server.sessions[j]? := by
  obtain ⟨d₁, h₁, hn₁⟩ := exists_deleted hd hi hl hx
  have hd₁ := hd.step h₁.step
  obtain ⟨d₂, h₂, hc₂, hn₂⟩ := exists_opened hd₁ h₁.self hl hn₁
  have hd₂ := hd₁.step h₂.step
  have hp : p ∉ s.held.erase p := fun hp => (Dict.mem_erase_iff.1 hp).1 rfl
  obtain ⟨d₃, h₃, hcredit, hx₃⟩ := exists_acquired hd₂ h₂.self hl hp hc₂ hn₂
  refine ⟨d₃, ?_, ?_, hcredit, ⟨_, h₃.self, rfl, ?_⟩, hx₃, fun j hj => ?_⟩
  · exact ((Relation.ReflTransGen.single h₁.step).tail h₂.step).tail h₃.step
  · rw [h₃.left, h₂.left, h₁.left]
  · exact Dict.getElem?_insert_eq_some_iff.2 (Or.inl ⟨rfl, rfl⟩)
  · rw [h₃.other hj, h₂.other hj, h₁.other hj]

/-- **A lock that is deleted under an end is taken from whoever has it next.** In every state in
which the end of a session is about to let a lock go that its client has for itself, the client's
next session may delete the lock, open it again and take it. Then the end takes it from that
session, which lists it still. -/
theorem exists_broken (hd : d.Proper) {t : Session} {ps : List Path}
    (hj : d.server.sessions[j]? = some t) (hq : d.left j = p :: ps)
    (hx : d.server.slots.Holds t.client p .exclusive) (hi : d.server.sessions[i]? = some s)
    (hc : s.client = t.client) (hl : s.ended = false) :
    ∃ d', Steps d d' ∧ ¬ d'.TakesOwn t.client p ∧ ¬ (d'.release j).Backed t.client p ∧
      (d'.release j).left = Function.update d.left j ps := by
  rw [← hc] at hx ⊢
  obtain ⟨u, hu, he⟩ := hd.ended j (by simp [hq])
  cases hj.symm.trans hu
  have hne : j ≠ i := by
    rintro rfl
    cases hi.symm.trans hj
    cases hl.symm.trans he
  obtain ⟨d', hs, hleft, hcr, hli, hown, hkeep⟩ := exists_retaken hd hi hl hx
  have hd' := hd.steps hs
  have hj' := (hkeep j hne).trans hj
  have hgone : ∀ m, ¬ (d'.release j).server.slots.Holds s.client p m := fun m hm => by
    rw [release_of_left hj' (hleft ▸ hq)] at hm
    exact ((Locks.holds_release d'.server.node (l := d'.server.locks d'.cluster) hd'.sound t.client
      s.client p p m).1 hm).2 ⟨hd'.stored _ p ⟨_, hown⟩, hc, rfl⟩
  refine ⟨d', hs, fun h => ?_, fun h => ?_, ?_⟩
  · have hcr' := h j ⟨_, hown⟩ fun ho => ho.elim hgone
    exact hne (Option.some.inj (hcr'.symm.trans hcr))
  · obtain ⟨w, hw, hwc, hwp⟩ := hli
    refine hgone _ (h i w ?_ hwc ?_ _ hwp)
    · rw [release_of_left hj' (hleft ▸ hq)]
      exact hw
    · simp [Session.live, hd'.live_of_mem hw (Dict.mem_of_getElem? hwp)]
  · rw [release_of_left hj' (hleft ▸ hq), ← hleft]

/-- After that the new session deletes the lock, opens it again and takes it. -/
def retaken : Draining :=
  ((overtaken.call 1 (.deleteLock "L")).call 1 (.openLock "L")).call 1
    (.acquireLock "L" .exclusive)

/-- The end of the old session takes the lock that the new one acquired. No end has anything
left then, and the new session lists a lock that is free. -/
theorem not_takes_own_of_retaken :
    (Cluster.empty.elect "a").leads "a" = true ∧
      Steps (fresh "a" "a:1" .fast (Cluster.empty.elect "a")) retaken ∧
      ¬ retaken.TakesOwn "x" "L" ∧ ¬ (retaken.release 0).Backed "x" "L" ∧
      ∀ i, (retaken.release 0).left i = [] := by
  have hs : Steps (fresh "a" "a:1" .fast (Cluster.empty.elect "a")) overtaken :=
    Relation.ReflTransGen.mono (fun _ _ h => h.1) _ _ quiet_overtaken
  have hown : retaken.server.Owner "x" "L" := (Server.owns_iff _ _ _).1 (by decide +kernel)
  have hgone : ¬ (retaken.release 0).server.Owner "x" "L" := fun ho =>
    absurd ((Server.owns_iff _ _ _).2 ho) (by decide +kernel)
  have hcredit : retaken.credit "x" "L" = some 1 := by decide +kernel
  have hlists : ((retaken.release 0).server.sessions[1]?).any
      (fun s => s.client == "x" && s.live && s.held.contains "L") = true := by decide +kernel
  have hleft : (retaken.release 0).left =
      Function.update (Function.update (fun _ => []) 0 ["L"]) 0 [] := rfl
  refine ⟨by decide, ((hs.tail (step_call _ 1 _)).tail (step_call _ 1 _)).tail (step_call _ 1 _),
    fun h => ?_, fun h => ?_, fun i => ?_⟩
  · cases hcredit.symm.trans (h 0 hown hgone)
  · simp only [Option.any_eq_true, Bool.and_eq_true, beq_iff_eq] at hlists
    obtain ⟨s, hi, ⟨hc, hl⟩, hp⟩ := hlists
    obtain ⟨m, hm⟩ := Dict.getElem?_of_mem (Std.ExtTreeMap.contains_iff_mem.1 hp)
    exact hgone ⟨m, h 1 s hi hc hl m hm⟩
  · rw [hleft]
    by_cases e : i = 0 <;> simp [e]

end Draining

end LockCell
