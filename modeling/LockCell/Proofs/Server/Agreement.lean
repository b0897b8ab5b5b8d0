import LockCell.Proofs.Server.Moves

/-
  LockCell.Proofs.Server.Agreement — the sessions of a server and its lock table agree.

  A session keeps a list of its locks, and the table keeps the owners of each lock. Three
  things tie them together.
  - What is on a session's list the table has as well (`Agrees.backed`), and so no two
    sessions have one lock but in the shared mode (`Agrees.shared`). This stands while
    what is on a list exists in the store whenever the server leads (`Stored`): opening a
    path that does not exist leaves a free record there, whatever was there before.
  - `Stored` is kept by all that the server does itself, for only an exclusive owner
    deletes a lock, and then nobody else has it on a list.
  - What the table has is on the list of the owner's registered session (`Covered`). This
    needs `Stored`, too: the end of a session lets go only of locks that exist.

  While one node leads, all three stand (`agreement_of_acts`).
-/

namespace LockCell

namespace Dict

variable {β : Type} {d : Dict β} {p q : String} {a b : β}

theorem mem_of_getElem? (h : d[p]? = some a) : p ∈ d :=
  Std.ExtTreeMap.mem_iff_isSome_getElem?.2 (by simp [h])

theorem getElem?_of_mem (h : p ∈ d) : ∃ a, d[p]? = some a :=
  Option.isSome_iff_exists.1 (Std.ExtTreeMap.mem_iff_isSome_getElem?.1 h)

theorem getElem?_insert_eq_some_iff :
    (d.insert q b)[p]? = some a ↔ p = q ∧ a = b ∨ p ≠ q ∧ d[p]? = some a := by
  by_cases e : p = q
  · simp [e, eq_comm (a := a)]
  · simp [Std.ExtTreeMap.getElem?_insert, e, Ne.symm e]

theorem getElem?_erase_eq_some_iff : (d.erase q)[p]? = some a ↔ p ≠ q ∧ d[p]? = some a := by
  by_cases e : p = q
  · simp [e]
  · simp [Std.ExtTreeMap.getElem?_erase, e, Ne.symm e]

theorem mem_insert_iff : p ∈ d.insert q b ↔ p = q ∨ p ∈ d := by
  rw [Std.ExtTreeMap.mem_insert, Std.LawfulEqCmp.compare_eq_iff_eq, eq_comm]

theorem mem_erase_iff : p ∈ d.erase q ↔ p ≠ q ∧ p ∈ d := by
  rw [Std.ExtTreeMap.mem_erase, Ne, Std.LawfulEqCmp.compare_eq_iff_eq, eq_comm]

end Dict

/-! ## What a call or an end makes of a session -/

namespace Session

variable {n : Node} {s s' : Session} {l l' : Locks Cluster}

theorem Calls.client (h : s.Calls n l s' l') : s'.client = s.client := by
  cases h <;> rfl

theorem Calls.config (h : s.Calls n l s' l') : s'.config = s.config := by
  cases h <;> rfl

theorem Calls.live (h : s.Calls n l s' l') (hs : s'.ended = false) : s.ended = false := by
  cases h with
  | closed => cases hs
  | _ => exact hs

theorem Calls.emptied (h : s.Calls n l s' l') (he : s.ended = true → s.held = ∅)
    (hs : s'.ended = true) : s'.held = ∅ := by
  cases h with
  | same => exact he hs
  | opened _ hl => exact he hs
  | acquired _ _ hl | released _ hl | deleted _ hl => exact absurd (hs.symm.trans hl) (by decide)
  | closed => rfl

theorem Calls.leader (h : s.Calls n l s' l') : l'.store.leader = l.store.leader := by
  cases h with
  | same hs | acquired _ _ _ _ _ _ hs | released _ _ _ hs | closed _ hs => rw [hs]
  | opened _ _ _ _ hs | deleted _ _ _ _ hs => exact hs

theorem Calls.contents_eq (h : s.Calls n l s' l') (hl : ¬ l.store.leads n = true) :
    l'.store.contents = l.store.contents := by
  cases h with
  | same hs | acquired _ _ _ _ _ _ hs | released _ _ _ hs | closed _ hs => rw [hs]
  | opened _ _ _ hl' | deleted _ _ _ hl' => exact absurd hl' hl

end Session

namespace Server

variable {W : Client → Prop} {now : Nat} {v : Server} {k : Cluster} {i : Nat} {s s' : Session}
  {l' : Locks Cluster}

/-- What is on a session's list exists in the store. -/
def Stored (v : Server) (k : Cluster) : Prop :=
  ∀ (i : Nat) (s : Session), v.sessions[i]? = some s → ∀ p ∈ s.held, p ∈ k.contents

/-- What is on a session's list the table has as well, and it exists if the server leads. -/
structure Agrees (v : Server) (k : Cluster) : Prop extends v.Kept where
  sound : v.slots.Sound
  backed : ∀ (i : Nat) (s : Session), v.sessions[i]? = some s → ∀ p m, s.held[p]? = some m →
    v.slots.Holds s.client p m
  stored : k.leads v.node = true → v.Stored k

/-- What the table has is on the list of the owner's session. -/
def Covered (v : Server) : Prop :=
  ∀ c p m, v.slots.Holds c p m → ∃ i s, v.session? c = some (i, s) ∧ s.held[p]? = some m

/-- The server and the store after a session came to be `s'` with the table and store `l'`. -/
def after (v : Server) (i : Nat) (s' : Session) (l' : Locks Cluster) : Server × Cluster :=
  ({ v.setSession i s' with slots := l'.slots }, l'.store)

theorem Kept.after (h : v.Kept) (hi : v.sessions[i]? = some s)
    (hc : s.Calls v.node (v.locks k) s' l') : (v.after i s' l').1.Kept :=
  h.set hi s' hc.client hc.config hc.live (hc.emptied (h.emptied i s hi)) _

/-- Two live sessions do not have one client, so what is taken from a live session's client
is not on another session's list. -/
theorem Kept.client_ne (h : v.Kept) {j : Nat} {t : Session} (hi : v.sessions[i]? = some s)
    (hj : v.sessions[j]? = some t) (hs : s.ended = false) {p : Path} (hp : p ∈ t.held)
    (hne : j ≠ i) : t.client ≠ s.client := by
  intro e
  exact hne (h.eq_of_live hj hi (h.live_of_mem hj hp) hs e)

theorem sessions_after (hi : v.sessions[i]? = some s) (s' : Session) (l' : Locks Cluster)
    (j : Nat) : (v.after i s' l').1.sessions[j]? = if j = i then some s' else v.sessions[j]? :=
  sessions_setSession hi s' j

/-! ## The table has what is on the lists -/

theorem Agrees.backed_self (h : v.Agrees k) (hi : v.sessions[i]? = some s)
    (hc : s.Calls v.node (v.locks k) s' l') {p : Path} {m : Mode} (hp : s'.held[p]? = some m) :
    l'.slots.Holds s.client p m := by
  have old := h.backed i s hi p m
  cases hc with
  | same _ hh => exact (hh _ p m).2 (old hp)
  | opened q _ hq hl _ _ hh =>
    refine (hh _ p m).2 ⟨old hp, ?_⟩
    intro he
    obtain rfl := he
    exact hq (h.stored hl i s hi p (Dict.mem_of_getElem? hp))
  | acquired q k' _ _ _ _ _ hh =>
    rcases Dict.getElem?_insert_eq_some_iff.1 hp with ⟨rfl, rfl⟩ | ⟨-, hp⟩
    · exact (hh _ p m).2 (Or.inr ⟨rfl, rfl, rfl⟩)
    · exact (hh _ p m).2 (Or.inl (old hp))
  | released q _ _ _ hh =>
    obtain ⟨hne, hp⟩ := Dict.getElem?_erase_eq_some_iff.1 hp
    exact (hh _ p m).2 ⟨old hp, fun e => hne e.2⟩
  | deleted q _ _ _ _ _ hh =>
    obtain ⟨hne, hp⟩ := Dict.getElem?_erase_eq_some_iff.1 hp
    exact (hh _ p m).2 ⟨old hp, hne⟩
  | closed => simp [Session.close] at hp

theorem Agrees.backed_other (h : v.Agrees k) (hi : v.sessions[i]? = some s)
    (hc : s.Calls v.node (v.locks k) s' l') {j : Nat} {t : Session}
    (hj : v.sessions[j]? = some t) (hne : j ≠ i) {p : Path} {m : Mode} (hp : t.held[p]? = some m) :
    l'.slots.Holds t.client p m := by
  have old := h.backed j t hj p m hp
  have hmem := Dict.mem_of_getElem? hp
  cases hc with
  | same _ hh => exact (hh _ p m).2 old
  | opened q _ hq hl _ _ hh =>
    refine (hh _ p m).2 ⟨old, ?_⟩
    intro he
    obtain rfl := he
    exact hq (h.stored hl j t hj p hmem)
  | acquired _ _ _ _ _ _ _ hh => exact (hh _ p m).2 (Or.inl old)
  | released q hl _ _ hh =>
    exact (hh _ p m).2 ⟨old, fun e => h.client_ne hi hj hl hmem hne e.1⟩
  | deleted q hl hq _ _ _ hh =>
    refine (hh _ p m).2 ⟨old, ?_⟩
    intro hz
    obtain rfl := hz
    exact h.client_ne hi hj hl hmem hne (hq.eq_of_exclusive h.sound old)
  | closed hl _ hh =>
    exact (hh _ p m).2 ⟨old, fun e => h.client_ne hi hj hl hmem hne e.1⟩

/-! ## What is on the lists exists -/

theorem Stored.self (hst : v.Stored k) (hi : v.sessions[i]? = some s)
    (hc : s.Calls v.node (v.locks k) s' l') {p : Path} (hp : p ∈ s'.held) :
    p ∈ l'.store.contents := by
  have old := hst i s hi p
  cases hc with
  | same hs => rw [hs]; exact old hp
  | opened q _ _ _ _ hs => exact (hs p).2 (Or.inl (old hp))
  | acquired q m _ _ hq _ hs =>
    rw [hs]
    rcases Dict.mem_insert_iff.1 hp with rfl | hp
    · exact hq
    · exact old hp
  | released q _ _ hs =>
    rw [hs]
    exact old (Dict.mem_erase_iff.1 hp).2
  | deleted q _ _ _ _ hs =>
    obtain ⟨hne, hp⟩ := Dict.mem_erase_iff.1 hp
    exact (hs p).2 ⟨old hp, hne⟩
  | closed => simp [Session.close] at hp

theorem Agrees.stored_other (h : v.Agrees k) (hst : v.Stored k) (hi : v.sessions[i]? = some s)
    (hc : s.Calls v.node (v.locks k) s' l') {j : Nat} {t : Session}
    (hj : v.sessions[j]? = some t) (hne : j ≠ i) {p : Path} (hp : p ∈ t.held) :
    p ∈ l'.store.contents := by
  have old := hst j t hj p hp
  cases hc with
  | same hs | acquired _ _ _ _ _ _ hs | released _ _ _ hs | closed _ hs => rw [hs]; exact old
  | opened q _ _ _ _ hs => exact (hs p).2 (Or.inl old)
  | deleted q hl hq _ _ hs =>
    refine (hs p).2 ⟨old, ?_⟩
    intro e
    obtain rfl := e
    -- whoever deletes a lock holds it alone
    have hb := h.backed j t hj p _ (Dict.getElem?_of_mem hp).choose_spec
    exact h.client_ne hi hj hl hp hne (hq.eq_of_exclusive h.sound hb)

/-! ## The lists have what is in the table -/

theorem Covered.after (hcov : v.Covered) (h : v.Agrees k) (hst : v.Stored k)
    (hi : v.sessions[i]? = some s) (hc : s.Calls v.node (v.locks k) s' l') :
    (v.after i s' l').1.Covered := by
  -- an old hold is still on the list, unless the call took it from there
  have keep : ∀ d q m, v.slots.Holds d q m →
      (d = s.client → s.held[q]? = some m → s'.held[q]? = some m) →
      ∃ j t, (v.after i s' l').1.session? d = some (j, t) ∧ t.held[q]? = some m := by
    intro d q m hd hs
    obtain ⟨j, t, hj, hq⟩ := hcov d q m hd
    have hcl := h.client_of_session? hj
    obtain ⟨hr, hj⟩ := session?_eq_some_iff.1 hj
    by_cases e : j = i
    · subst e
      rw [hi] at hj
      cases hj
      exact ⟨j, s', session?_eq_some_iff.2 ⟨hr, by rw [sessions_after hi, if_pos rfl]⟩,
        hs hcl.symm hq⟩
    · exact ⟨j, t, session?_eq_some_iff.2 ⟨hr, by rw [sessions_after hi, if_neg e, hj]⟩, hq⟩
  intro d q m hd
  have hd : l'.slots.Holds d q m := hd
  cases hc with
  | same _ hh => exact keep d q m ((hh d q m).1 hd) fun _ => id
  | opened _ _ _ _ _ _ hh => exact keep d q m ((hh d q m).1 hd).1 fun _ => id
  | acquired p m' hl hp _ _ _ hh =>
    rcases (hh d q m).1 hd with hd | ⟨rfl, rfl, rfl⟩
    · refine keep d q m hd fun _ hq => ?_
      refine Dict.getElem?_insert_eq_some_iff.2 (Or.inr ⟨?_, hq⟩)
      intro he
      obtain rfl := he
      exact hp (Dict.mem_of_getElem? hq)
    · have hi' := sessions_after hi { s with held := s.held.insert q m } l' i
      rw [if_pos rfl] at hi'
      exact ⟨i, _, session?_eq_some_iff.2 ⟨h.newest i s hi hl, hi'⟩,
        Dict.getElem?_insert_eq_some_iff.2 (Or.inl ⟨rfl, rfl⟩)⟩
  | released p _ _ _ hh =>
    obtain ⟨hd, hn⟩ := (hh d q m).1 hd
    exact keep d q m hd fun hcl hq =>
      Dict.getElem?_erase_eq_some_iff.2 ⟨fun e => hn ⟨hcl, e⟩, hq⟩
  | deleted p _ _ _ _ _ hh =>
    obtain ⟨hd, hn⟩ := (hh d q m).1 hd
    exact keep d q m hd fun _ hq => Dict.getElem?_erase_eq_some_iff.2 ⟨hn, hq⟩
  | closed _ _ hh =>
    obtain ⟨hd, hn⟩ := (hh d q m).1 hd
    refine keep d q m hd fun hcl hq => absurd ?_ hn
    have hmem := Dict.mem_of_getElem? hq
    exact ⟨hcl, hmem, hst i s hi q hmem⟩

theorem Agrees.after (h : v.Agrees k) (hi : v.sessions[i]? = some s)
    (hc : s.Calls v.node (v.locks k) s' l') (hs : l'.slots.Sound) :
    (v.after i s' l').1.Agrees (v.after i s' l').2 where
  toKept := h.toKept.after hi hc
  sound := hs
  backed j t hj p m hp := by
    rw [sessions_after hi] at hj
    split at hj
    · cases hj
      rw [hc.client]
      exact h.backed_self hi hc hp
    · rename_i hne
      exact h.backed_other hi hc hj hne hp
  stored hl j t hj p hp := by
    have hl : k.leads v.node = true := (Cluster.leads_of_leader_eq hc.leader v.node).symm.trans hl
    rw [sessions_after hi] at hj
    split at hj
    · cases hj
      exact (h.stored hl).self hi hc hp
    · rename_i hne
      exact h.stored_other (h.stored hl) hi hc hj hne hp

/-- A server with no sessions and an empty table agrees with every store. -/
theorem agrees_fresh (n : Node) (listen : Addr) (lease : LeaseConfig) (k : Cluster) :
    Agrees { node := n, listen, lease } k where
  toKept := kept_fresh n listen lease
  sound := Slots.sound_empty
  backed i s h := by simp at h
  stored _ i s h := by simp at h

/-! ## One move -/

theorem Agrees.set (h : v.Agrees k) (hi : v.sessions[i]? = some s) (hc : s'.client = s.client)
    (hg : s'.config = s.config) (hh : s'.held = s.held) (he : s'.ended = s.ended) :
    (v.setSession i s').Agrees k where
  toKept := h.toKept.set hi s' hc hg (fun hl => he ▸ hl) (fun hd => by
    rw [hh]
    exact h.emptied i s hi (he ▸ hd)) v.slots
  sound := h.sound
  backed j t hj p m hp := by
    rw [sessions_setSession hi] at hj
    split at hj
    · cases hj
      rw [hc]
      exact h.backed i s hi p m (hh ▸ hp)
    · exact h.backed j t hj p m hp
  stored hl j t hj p hp := by
    rw [sessions_setSession hi] at hj
    split at hj
    · cases hj
      exact h.stored hl i s hi p (hh ▸ hp)
    · exact h.stored hl j t hj p hp

theorem Covered.set (hcov : v.Covered) (hi : v.sessions[i]? = some s) (hh : s'.held = s.held) :
    (v.setSession i s').Covered := by
  intro c p m hd
  obtain ⟨j, t, hj, hp⟩ := hcov c p m hd
  obtain ⟨hr, hj⟩ := session?_eq_some_iff.1 hj
  by_cases e : j = i
  · subst e
    rw [hi] at hj
    cases hj
    exact ⟨j, s', session?_eq_some_iff.2 ⟨hr, by rw [sessions_setSession hi, if_pos rfl]⟩,
      hh ▸ hp⟩
  · exact ⟨j, t, session?_eq_some_iff.2 ⟨hr, by rw [sessions_setSession hi, if_neg e, hj]⟩, hp⟩

theorem Agrees.push (h : v.Agrees k) {c : Client}
    (hc : ∀ i s, v.session? c = some (i, s) → s.ended = true) (now : Nat) :
    (v.push c now).Agrees k where
  toKept := h.toKept.push hc now
  sound := h.sound
  backed j t hj p m hp := by
    rw [sessions_push] at hj
    split at hj
    · cases hj
      simp [Session.begin] at hp
    · exact h.backed j t hj p m hp
  stored hl j t hj p hp := by
    rw [sessions_push] at hj
    split at hj
    · cases hj
      simp [Session.begin] at hp
    · exact h.stored hl j t hj p hp

theorem Covered.push (hcov : v.Covered) (h : v.Agrees k) {c : Client}
    (hc : ∀ i s, v.session? c = some (i, s) → s.ended = true) (now : Nat) :
    (v.push c now).Covered := by
  intro d p m hd
  obtain ⟨j, t, hj, hp⟩ := hcov d p m hd
  have hne : d ≠ c := by
    intro e
    obtain rfl := e
    have he := h.emptied j t (session?_eq_some_iff.1 hj).2 (hc j t hj)
    simp [he] at hp
  obtain ⟨hr, hj⟩ := session?_eq_some_iff.1 hj
  have hlt := (Array.getElem?_eq_some_iff.1 hj).1
  refine ⟨j, t, session?_eq_some_iff.2 ⟨?_, ?_⟩, hp⟩
  · rw [registry_push, if_neg hne, hr]
  · rw [sessions_push, if_neg (by omega), hj]

theorem Agrees.of_contents (h : v.Agrees k) {k' : Cluster} (hl : k'.leader = k.leader)
    (hc : k'.contents = k.contents) : v.Agrees k' where
  toKept := h.toKept
  sound := h.sound
  backed := h.backed
  stored hl' i s hi p hp := by
    rw [hc]
    exact h.stored ((Cluster.leads_of_leader_eq hl v.node).symm.trans hl') i s hi p hp

theorem Move.agrees {x y : Server × Cluster} (hm : Move W now x y) (h : x.1.Agrees x.2) :
    y.1.Agrees y.2 := by
  cases hm with
  | begin c hc => exact h.push hc now
  | tend hi ht => exact h.set hi ht.client ht.config ht.held ht.ended
  | refresh _ hi _ => exact h.set hi rfl rfl rfl rfl
  | call op hi =>
    rw [onSession_of_some hi]
    exact h.after hi (Session.calls_call _ h.sound op) (Session.sound_call _ h.sound op)
  | expire hi _ | terminate _ hi =>
    unfold Server.terminate
    rw [onSession_of_some hi]
    exact h.after hi (Session.calls_terminate _ h.sound) (Session.sound_terminate _ h.sound)
  | members hl hc => exact h.of_contents hl hc

theorem Move.covered {x y : Server × Cluster} (hm : Move W now x y) (h : x.1.Agrees x.2)
    (hst : x.1.Stored x.2) (hcov : x.1.Covered) : y.1.Covered := by
  cases hm with
  | begin c hc => exact hcov.push h hc now
  | tend hi ht => exact hcov.set hi ht.held
  | refresh _ hi _ => exact hcov.set hi rfl
  | call op hi =>
    rw [onSession_of_some hi]
    exact hcov.after h hst hi (Session.calls_call _ h.sound op)
  | expire hi _ | terminate _ hi =>
    unfold Server.terminate
    rw [onSession_of_some hi]
    exact hcov.after h hst hi (Session.calls_terminate _ h.sound)
  | members _ _ => exact hcov

/-- No move makes a server another node or moves leadership. -/
theorem Move.leads {x y : Server × Cluster} (hm : Move W now x y) (hs : x.1.slots.Sound) :
    y.1.node = x.1.node ∧ y.2.leader = x.2.leader := by
  cases hm with
  | begin | tend | refresh => exact ⟨rfl, rfl⟩
  | call op hi =>
    rw [onSession_of_some hi]
    exact ⟨rfl, (Session.calls_call _ hs op).leader⟩
  | expire hi _ | terminate _ hi =>
    unfold Server.terminate
    rw [onSession_of_some hi]
    exact ⟨rfl, (Session.calls_terminate _ hs).leader⟩
  | members hl _ => exact ⟨rfl, hl⟩

/-- A server that does not lead writes nothing. -/
theorem Move.contents_eq {x y : Server × Cluster} (hm : Move W now x y)
    (hs : x.1.slots.Sound) (hl : ¬ x.2.leads x.1.node = true) : y.2.contents = x.2.contents := by
  cases hm with
  | begin | tend | refresh => rfl
  | @call v k i s op hi =>
    rw [onSession_of_some hi]
    exact (Session.calls_call v.node hs op).contents_eq hl
  | @expire v k i s hi _ | @terminate v k i s _ hi =>
    unfold Server.terminate
    rw [onSession_of_some hi]
    exact (Session.calls_terminate v.node hs).contents_eq hl
  | members _ hc => exact hc

theorem Move.sound {x y : Server × Cluster} (hm : Move W now x y) (hs : x.1.slots.Sound) :
    y.1.slots.Sound := by
  cases hm with
  | begin | tend | refresh | members => exact hs
  | call op hi =>
    rw [onSession_of_some hi]
    exact Session.sound_call _ hs op
  | expire hi _ | terminate _ hi =>
    unfold Server.terminate
    rw [onSession_of_some hi]
    exact Session.sound_terminate _ hs

/-- While the server leads, sessions and table agree both ways. -/
structure Leads (v : Server) (k : Cluster) : Prop extends v.Agrees k where
  leads : k.leads v.node = true
  covered : v.Covered

theorem Moves.leads {x y : Server × Cluster} (hm : Moves W now x y) (h : x.1.Leads x.2) :
    y.1.Leads y.2 := by
  induction hm with
  | refl => exact h
  | tail _ hm ih =>
    obtain ⟨hn, hl⟩ := hm.leads ih.sound
    refine ⟨hm.agrees ih.toAgrees, ?_, hm.covered ih.toAgrees (ih.stored ih.leads) ih.covered⟩
    rw [hn, Cluster.leads_of_leader_eq hl]
    exact ih.leads

end Server

end LockCell
