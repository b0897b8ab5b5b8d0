import LockCell.Proofs.Server.OneSession
import LockCell.Proofs.Server.Orphans
import LockCell.Server.Drain
import Mathlib.Logic.Function.Iterate

/-
  LockCell.Proofs.Server.Draining — what stands while sessions come to their ends.

  The end of a session has the paths that were on the list, and releases them one by one by
  the name of the client. Between its steps the server makes any moves at all (`Step`), so
  every request fits in there (`exists_steps_does`), and an end with nothing between its steps
  is the end in one go (`terminate_eq_iterate`).

  Of every client and every lock one of three things is true (`Placed`).
  - The client does not own the lock, no session of it lists the lock, and no end has yet to
    let it go.
  - A session lists it. What that session gives up when it is marked passes to its end.
  - The end of a session has yet to let it go. Then no session of the client lists it, and
    none can come to list it, for what an acquire is granted was not owned before.
  Each step keeps this (`Placed.step`), but for one: the lock may be deleted while an end has
  yet to let it go (`Cuts`).
-/

namespace LockCell

namespace Dict

variable {β : Type} {d : Dict β} {p q : String} {b : β}

theorem getElem?_insert_of_ne (h : p ≠ q) : (d.insert q b)[p]? = d[p]? := by
  simp [Std.ExtTreeMap.getElem?_insert, Ne.symm h]

theorem getElem?_erase_of_ne (h : p ≠ q) : (d.erase q)[p]? = d[p]? := by
  simp [Std.ExtTreeMap.getElem?_erase, Ne.symm h]

end Dict

namespace Session

variable (n : Node) {s : Session} {l : Locks Cluster} {op : LockOp} {p : Path}

/-- What a call puts on the list the client did not own before. -/
theorem not_holds_of_call (h : l.slots.Sound)
    (hp : p ∈ (s.call (Cluster.storeOf n) l op).2.1.held) (hn : p ∉ s.held) (m : Mode) :
    ¬ l.slots.Holds s.client p m := by
  cases hs : s.ended with
  | true =>
    rw [call_of_ended n hs] at hp
    exact absurd hp hn
  | false =>
    cases op with
    | openLock q =>
      simp only [call, openLock, whenLive, hs, Bool.false_eq_true, if_false] at hp
      exact absurd hp hn
    | acquireLock q k =>
      have hok := Locks.acquire_eq_true_iff n h s.client q k
      simp only [call, acquire, whenLive, hs, Bool.false_eq_true, if_false] at hp
      split at hp
      · exact absurd hp hn
      · revert hok hp
        rcases l.acquire (Cluster.storeOf n) s.client q k with ⟨_ | _ | _, l'⟩ <;> intro hok hp
        · exact absurd hp hn
        · exact absurd hp hn
        · rcases Dict.mem_insert_iff.1 hp with rfl | hp
          · exact (hok.1 rfl).2.2.1 m
          · exact absurd hp hn
    | releaseLock q =>
      simp only [call, release, whenLive, hs, Bool.false_eq_true, if_false] at hp
      split at hp
      · revert hp
        rcases l.release (Cluster.storeOf n) s.client q with ⟨_ | _, l'⟩ <;> intro hp
        · exact absurd hp hn
        · exact absurd (Dict.mem_erase_iff.1 hp).2 hn
      · exact absurd hp hn
    | deleteLock q =>
      simp only [call, delete, whenLive, hs, Bool.false_eq_true, if_false] at hp
      revert hp
      rcases l.delete (Cluster.storeOf n) s.client q with ⟨_ | _, l'⟩ <;> intro hp
      · exact absurd hp hn
      · exact absurd (Dict.mem_erase_iff.1 hp).2 hn

theorem store_terminate (h : l.slots.Sound) :
    (s.terminate (Cluster.storeOf n) l).2.store = l.store := by
  unfold terminate
  split
  · rfl
  · exact store_drain n s.client _ h

end Session

theorem Server.owns_iff (v : Server) (c : Client) (p : Path) : v.owns c p = true ↔ v.Owner c p := by
  unfold Server.owns Server.Owner Slots.Holds
  cases v.slots.record? p <;> simp [Record.ownedBy_iff]

theorem Server.cluster_terminate {v : Server} (h : v.slots.Sound) (k : Cluster) (i : Nat) :
    (v.terminate k i).2 = k := by
  unfold terminate
  cases hi : v.sessions[i]? with
  | none =>
    unfold onSession
    rw [hi]
  | some s =>
    rw [onSession_of_some hi]
    exact Session.store_terminate v.node (l := v.locks k) h

namespace Draining

/-- A lock call in the session of that number. -/
def call (d : Draining) (i : Nat) (op : LockOp) : Draining :=
  d.moved (d.server.onSession d.cluster i () fun s l => ((), (s.call d.server.store l op).2)).2

/-- One step: a move of the server, or of the end of a session. -/
inductive Step : Draining → Draining → Prop
  | move {d : Draining} {now : Nat} {x : Server × Cluster} :
      Server.Move (fun _ => True) now (d.server, d.cluster) x → Step d (d.moved x)
  | mark (d : Draining) (i : Nat) : Step d (d.mark i)
  | release (d : Draining) (i : Nat) : Step d (d.release i)

abbrev Steps : Draining → Draining → Prop := Relation.ReflTransGen Step

/-- A session of the client has the lock on its list. -/
def Lists (d : Draining) (i : Nat) (c : Client) (p : Path) (m : Mode) : Prop :=
  ∃ s, d.server.sessions[i]? = some s ∧ s.client = c ∧ s.held[p]? = some m

/-- The end of a session of the client has yet to let the lock go. -/
def Owes (d : Draining) (i : Nat) (c : Client) (p : Path) : Prop :=
  ∃ s, d.server.sessions[i]? = some s ∧ s.client = c ∧ p ∈ d.left i

/-- The lock is deleted while the end of a session of the client has yet to let it go. -/
def Cuts (d d' : Draining) (c : Client) (p : Path) : Prop :=
  (∃ i, d.Owes i c p) ∧ p ∈ d.cluster.contents ∧ p ∉ d'.cluster.contents

/-- What stands in every state while the server leads: what is owned exists, and only sessions
that have ended have ends. -/
structure Proper (d : Draining) : Prop extends d.server.Kept where
  sound : d.server.slots.Sound
  leads : d.cluster.leads d.server.node = true
  stored : ∀ c p, d.server.Owner c p → p ∈ d.cluster.contents
  nodup : ∀ i, (d.left i).Nodup
  ended : ∀ i, d.left i ≠ [] → ∃ s, d.server.sessions[i]? = some s ∧ s.ended = true

/-- Where a client's ownership of a lock belongs. -/
inductive Placed (d : Draining) (c : Client) (p : Path) : Prop
  /-- There is none. -/
  | nowhere : ¬ d.server.Owner c p → (∀ i m, ¬ d.Lists i c p m) → (∀ i, ¬ d.Owes i c p) →
      Placed d c p
  /-- To a session that lists it. -/
  | listed (i : Nat) (m : Mode) : d.server.slots.Holds c p m → d.credit c p = some i →
      d.Lists i c p m → (∀ j, ¬ d.Owes j c p) → Placed d c p
  /-- To the end of a session. -/
  | owed (i : Nat) : d.server.Owner c p → d.credit c p = some i → d.Owes i c p →
      (∀ j m, ¬ d.Lists j c p m) → (∀ j, d.Owes j c p → j = i) → Placed d c p

variable {d d' : Draining} {c : Client} {p : Path} {i j : Nat} {m : Mode} {s s' : Session}
  {l : Locks Cluster} {x : Server × Cluster}

theorem credit_moved_of_owner (h : d.server.Owner c p) (h' : x.1.Owner c p) :
    (d.moved x).credit c p = d.credit c p := by
  simp only [moved, (Server.owns_iff _ _ _).2 h, (Server.owns_iff _ _ _).2 h', if_true]

theorem credit_moved_of_not_owner (h : ¬ d.server.Owner c p) (h' : x.1.Owner c p) :
    (d.moved x).credit c p = x.1.registry[c]? := by
  have ho : ¬ d.server.owns c p = true := fun ho => h ((Server.owns_iff _ _ _).1 ho)
  simp [moved, (Server.owns_iff _ _ _).2 h', ho]

theorem step_call (d : Draining) (i : Nat) (op : LockOp) : Step d (d.call i op) := by
  cases hi : d.server.sessions[i]? with
  | some s => exact @Step.move d 0 _ (.call op hi)
  | none =>
    have hm : Server.Move (fun _ => True) 0 (d.server, d.cluster) (d.server, d.cluster) :=
      .members rfl rfl
    unfold call Server.onSession
    rw [hi]
    exact .move hm

theorem sessions_moved_after (hi : d.server.sessions[i]? = some s) (s' : Session)
    (l : Locks Cluster) (j : Nat) :
    (d.moved (d.server.after i s' l)).server.sessions[j]? =
      if j = i then some s' else d.server.sessions[j]? := Server.sessions_after hi s' l j

/-! ## Lists and ends -/

theorem Proper.lists_unique (h : d.Proper) {m' : Mode} (hi : d.Lists i c p m)
    (hj : d.Lists j c p m') : i = j ∧ m = m' := by
  obtain ⟨s, hi, rfl, hp⟩ := hi
  obtain ⟨t, hj, hc, hq⟩ := hj
  obtain rfl := h.eq_of_live hi hj (h.live_of_mem hi (Dict.mem_of_getElem? hp))
    (h.live_of_mem hj (Dict.mem_of_getElem? hq)) hc.symm
  cases hi.symm.trans hj
  exact ⟨rfl, Option.some.inj (hp.symm.trans hq)⟩

section Set

variable (hi : d.server.sessions[i]? = some s)
  (hs : ∀ j, d'.server.sessions[j]? = if j = i then some s' else d.server.sessions[j]?)
include hi hs

/-- A session that keeps its client, and the lock on its list if it is its client's, changes
nothing in the lists. -/
theorem lists_iff_of_set (hc : s'.client = s.client)
    (hp : s.client = c → s'.held[p]? = s.held[p]?) (j : Nat) (m : Mode) :
    d'.Lists j c p m ↔ d.Lists j c p m := by
  unfold Lists
  rw [hs]
  split
  · rename_i e
    subst e
    simp only [hi, Option.some.injEq, exists_eq_left', hc]
    exact and_congr_right fun e => by rw [hp e]
  · rfl

theorem owes_iff_of_set (hc : s'.client = s.client)
    (hl : ∀ t, d.server.sessions[j]? = some t → t.client = c → (p ∈ d'.left j ↔ p ∈ d.left j)) :
    d'.Owes j c p ↔ d.Owes j c p := by
  unfold Owes
  rw [hs]
  split
  · rename_i e
    subst e
    simp only [hi, Option.some.injEq, exists_eq_left', hc]
    exact and_congr_right fun e => hl s hi e
  · exact exists_congr fun t => and_congr_right fun ht => and_congr_right fun e => hl t ht e

/-- No session lists what the client's live one does not. -/
theorem not_lists_of_set (h : d.Proper) (hl : s.ended = false) (hc : s.client = c)
    (hp : p ∉ s'.held) (j : Nat) (m : Mode) : ¬ d'.Lists j c p m := by
  rintro ⟨t, hj, htc, hm⟩
  have hmem := Dict.mem_of_getElem? hm
  rw [hs] at hj
  split at hj
  · cases hj
    exact hp hmem
  · rename_i hne
    exact hne (h.eq_of_live hj hi (h.live_of_mem hj hmem) hl (htc.trans hc.symm))

end Set

/-- If neither table nor lists nor ends change, everything belongs where it did. -/
theorem Placed.of (h : d.Placed c p)
    (hh : ∀ m, d'.server.slots.Holds c p m ↔ d.server.slots.Holds c p m)
    (hc : d.server.Owner c p → d'.credit c p = d.credit c p)
    (hl : ∀ i m, d'.Lists i c p m ↔ d.Lists i c p m) (ho : ∀ i, d'.Owes i c p ↔ d.Owes i c p) :
    d'.Placed c p := by
  have hown : d'.server.Owner c p ↔ d.server.Owner c p := exists_congr hh
  cases h with
  | nowhere hn hnl hno =>
    exact .nowhere (fun h => hn (hown.1 h)) (fun i m h => hnl i m ((hl i m).1 h))
      fun i h => hno i ((ho i).1 h)
  | listed i m hm hcr hli hno =>
    exact .listed i m ((hh m).2 hm) ((hc ⟨m, hm⟩).trans hcr) ((hl i m).2 hli)
      fun j h => hno j ((ho j).1 h)
  | owed i hn hcr hoi hnl hu =>
    exact .owed i (hown.2 hn) ((hc hn).trans hcr) ((ho i).2 hoi)
      (fun j m h => hnl j m ((hl j m).1 h)) fun j h => hu j ((ho j).1 h)

/-- If the server moves and neither table nor lists nor ends change, everything belongs
where it did. -/
theorem Placed.moved (h : d.Placed c p)
    (hh : ∀ m, x.1.slots.Holds c p m ↔ d.server.slots.Holds c p m)
    (hl : ∀ i m, (d.moved x).Lists i c p m ↔ d.Lists i c p m)
    (ho : ∀ i, (d.moved x).Owes i c p ↔ d.Owes i c p) : (d.moved x).Placed c p :=
  h.of hh (fun hn => credit_moved_of_owner hn ((exists_congr hh).2 hn)) hl ho

theorem Placed.of_lists (h : d.Placed c p) (hd : d.Proper) (hl : d.Lists i c p m) :
    d.server.slots.Holds c p m ∧ d.credit c p = some i ∧ ∀ j, ¬ d.Owes j c p := by
  cases h with
  | nowhere _ hnl _ => exact absurd hl (hnl i m)
  | owed _ _ _ _ hnl _ => exact absurd hl (hnl i m)
  | listed j k hh hcr hlj hno =>
    obtain ⟨rfl, rfl⟩ := hd.lists_unique hl hlj
    exact ⟨hh, hcr, hno⟩

theorem Placed.of_owes (h : d.Placed c p) (ho : d.Owes i c p) :
    d.server.Owner c p ∧ d.credit c p = some i ∧ (∀ j m, ¬ d.Lists j c p m) ∧
      ∀ j, d.Owes j c p → j = i := by
  cases h with
  | nowhere _ _ hno => exact absurd ho (hno i)
  | listed _ _ _ _ _ hno => exact absurd ho (hno i)
  | owed k hn hcr _ hnl hu =>
    obtain rfl := hu i ho
    exact ⟨hn, hcr, hnl, hu⟩

/-! ## The moves of the server -/

theorem Placed.after (h : d.Placed c p) (hd : d.Proper) (hi : d.server.sessions[i]? = some s)
    (hc : s.Calls d.server.node (d.server.locks d.cluster) s' l)
    (hnew : ∀ q, q ∈ s'.held → q ∉ s.held → ∀ m, ¬ d.server.slots.Holds s.client q m)
    (hcut : ¬ d.Cuts (d.moved (d.server.after i s' l)) c p) :
    (d.moved (d.server.after i s' l)).Placed c p := by
  have hs := sessions_moved_after hi s' l
  have howes : ∀ j, (d.moved (d.server.after i s' l)).Owes j c p ↔ d.Owes j c p := fun j =>
    owes_iff_of_set hi hs hc.client fun _ _ _ => Iff.rfl
  have frame (hh : ∀ m, l.slots.Holds c p m ↔ d.server.slots.Holds c p m)
      (hp : s.client = c → s'.held[p]? = s.held[p]?) :
      (d.moved (d.server.after i s' l)).Placed c p :=
    h.moved hh (lists_iff_of_set hi hs hc.client hp) howes
  -- a lock that its session gives up belongs nowhere, if no end is to let it go
  have gone (hl : s.ended = false) (hcl : s.client = c) (hp : p ∉ s'.held)
      (hn : ∀ m, ¬ l.slots.Holds c p m) (hno : ∀ j, ¬ d.Owes j c p) :
      (d.moved (d.server.after i s' l)).Placed c p :=
    .nowhere (fun ho => ho.elim hn) (not_lists_of_set hi hs hd hl hcl hp)
      fun j ho => hno j ((howes j).1 ho)
  cases hc with
  | same _ hh => exact frame (hh c p) fun _ => rfl
  | opened q _ hq _ _ _ hh =>
    refine frame (fun m => (hh c p m).trans (and_iff_left_of_imp fun hm e => ?_)) fun _ => rfl
    exact hq (e ▸ hd.stored c p ⟨m, hm⟩)
  | acquired q m hl hq _ _ _ hh =>
    by_cases e : s.client = c ∧ p = q
    · obtain ⟨rfl, rfl⟩ := e
      have hn : ¬ d.server.Owner s.client p := fun ho =>
        ho.elim (hnew p (Dict.mem_insert_iff.2 (Or.inl rfl)) hq)
      have hm : l.slots.Holds s.client p m := (hh _ p m).2 (Or.inr ⟨rfl, rfl, rfl⟩)
      refine .listed i m hm ?_ ⟨_, (hs i).trans (if_pos rfl), rfl,
        Dict.getElem?_insert_eq_some_iff.2 (Or.inl ⟨rfl, rfl⟩)⟩ fun j ho =>
        hn (h.of_owes ((howes j).1 ho)).1
      rw [credit_moved_of_not_owner hn ⟨m, hm⟩]
      exact hd.newest i s hi hl
    · exact frame (fun k => (hh c p k).trans (or_iff_left fun h => e ⟨h.1.symm, h.2.1⟩))
        fun hcl => Dict.getElem?_insert_of_ne fun h => e ⟨hcl, h⟩
  | released q hl hq _ hh =>
    by_cases e : s.client = c ∧ p = q
    · obtain ⟨rfl, rfl⟩ := e
      obtain ⟨m, hm⟩ := Dict.getElem?_of_mem hq
      exact gone hl rfl (fun h => (Dict.mem_erase_iff.1 h).1 rfl)
        (fun m hm => ((hh _ p m).1 hm).2 ⟨rfl, rfl⟩) (h.of_lists hd ⟨s, hi, rfl, hm⟩).2.2
    · exact frame (fun k => (hh c p k).trans (and_iff_left fun h => e ⟨h.1.symm, h.2⟩))
        fun hcl => Dict.getElem?_erase_of_ne fun h => e ⟨hcl, h⟩
  | deleted q hl hq _ _ hmem hh =>
    by_cases e : p = q
    · subst e
      by_cases hcl : s.client = c
      · subst hcl
        exact gone hl rfl (fun h => (Dict.mem_erase_iff.1 h).1 rfl)
          (fun m hm => ((hh _ p m).1 hm).2 rfl)
          fun j ho => hcut ⟨⟨j, ho⟩, hd.stored _ p ⟨_, hq⟩, fun hm => ((hmem p).1 hm).2 rfl⟩
      · -- the deleter holds the lock alone
        have hn : ∀ m, ¬ d.server.slots.Holds c p m := fun m hm =>
          hcl (hq.eq_of_exclusive hd.sound hm).symm
        exact frame (fun m => iff_of_false (fun hm => hn m ((hh c p m).1 hm).1) (hn m))
          fun e => absurd e hcl
    · exact frame (fun k => (hh c p k).trans (and_iff_left e))
        fun _ => Dict.getElem?_erase_of_ne e
  | closed hl _ hh =>
    by_cases e : s.client = c ∧ p ∈ s.held
    · obtain ⟨rfl, hp⟩ := e
      obtain ⟨m, hm⟩ := Dict.getElem?_of_mem hp
      refine gone hl rfl (by simp [Session.close]) (fun k hk => ?_)
        (h.of_lists hd ⟨s, hi, rfl, hm⟩).2.2
      obtain ⟨hk, hn⟩ := (hh _ p k).1 hk
      exact hn ⟨rfl, hp, hd.stored _ p ⟨k, hk⟩⟩
    · refine frame (fun k => (hh c p k).trans (and_iff_left fun h => e ⟨h.1.symm, h.2.1⟩)) ?_
      intro hcl
      have hp : p ∉ s.held := fun hp => e ⟨hcl, hp⟩
      simp [Session.close, Std.ExtTreeMap.getElem?_eq_none hp]

/-- A session that is tended or refreshed lists what it did. -/
theorem Placed.set (h : d.Placed c p) (hi : d.server.sessions[i]? = some s)
    (hc : s'.client = s.client) (hh : s'.held = s.held) :
    (d.moved (d.server.setSession i s', d.cluster)).Placed c p := by
  have hs := Server.sessions_setSession hi s'
  exact h.moved (fun _ => Iff.rfl) (lists_iff_of_set hi hs hc fun _ => by rw [hh])
    fun j => owes_iff_of_set hi hs hc fun _ _ _ => Iff.rfl

/-- A new session lists nothing, and no end has its number. -/
theorem Placed.push (h : d.Placed c p) (hd : d.Proper) (e : Client) (now : Nat) :
    (d.moved (d.server.push e now, d.cluster)).Placed c p := by
  refine h.moved (fun _ => Iff.rfl) (fun j m => ?_) fun j => ?_
  · unfold Lists
    simp only [Draining.moved, Server.sessions_push]
    split
    · rename_i hj
      subst hj
      simp [Session.begin]
    · rfl
  · unfold Owes
    simp only [Draining.moved, Server.sessions_push]
    split
    · rename_i hj
      subst hj
      have hl : d.left d.server.sessions.size = [] := by
        refine Classical.byContradiction fun hl => ?_
        obtain ⟨t, ht, -⟩ := hd.ended _ hl
        simp at ht
      simp [hl]
    · rfl

theorem Placed.move {now : Nat} (h : d.Placed c p) (hd : d.Proper)
    (hm : Server.Move (fun _ => True) now (d.server, d.cluster) x)
    (hcut : ¬ d.Cuts (d.moved x) c p) : (d.moved x).Placed c p := by
  cases hm with
  | begin e => exact h.push hd e now
  | tend hi ht => exact h.set hi ht.client ht.held
  | refresh _ hi _ => exact h.set hi rfl rfl
  | call op hi =>
    rw [Server.onSession_of_some hi] at hcut ⊢
    exact h.after hd hi (Session.calls_call _ hd.sound op)
      (fun q => Session.not_holds_of_call _ hd.sound) hcut
  | expire hi _ | terminate _ hi =>
    unfold Server.terminate at hcut ⊢
    rw [Server.onSession_of_some hi] at hcut ⊢
    refine h.after hd hi (Session.calls_terminate _ hd.sound) (fun q hq hn => ?_) hcut
    unfold Session.terminate at hq
    split at hq
    · exact absurd hq hn
    · simp [Session.close] at hq
  | members _ _ =>
    exact h.moved (fun _ => Iff.rfl) (fun _ _ => Iff.rfl) fun _ => Iff.rfl

/-! ## The ends of sessions -/

theorem mark_of_live (hi : d.server.sessions[i]? = some s) (hl : s.ended = false) :
    d.mark i = { d with
      server := d.server.setSession i s.close
      left := Function.update d.left i s.held.keys } := by
  simp [mark, hi, hl]

theorem release_of_left {ps : List Path} (hi : d.server.sessions[i]? = some s)
    (hp : d.left i = p :: ps) :
    d.release i =
      { d.moved ({ d.server with
            slots := ((d.server.locks d.cluster).release d.server.store s.client p).2.slots },
          ((d.server.locks d.cluster).release d.server.store s.client p).2.store) with
        left := Function.update d.left i ps } := by
  simp only [release, hi, hp]

/-- The end of a session changes something only if there is a lock left. -/
theorem release_cases (d : Draining) (i : Nat) : d.release i = d ∨
    ∃ s p ps, d.server.sessions[i]? = some s ∧ d.left i = p :: ps := by
  unfold release
  split
  · rename_i s p ps hi hp
    exact Or.inr ⟨s, p, ps, hi, hp⟩
  · exact Or.inl rfl

theorem mark_cases (d : Draining) (i : Nat) : d.mark i = d ∨
    ∃ s, d.server.sessions[i]? = some s ∧ s.ended = false := by
  unfold mark
  split
  · exact Or.inl rfl
  · rename_i s hi
    cases hl : s.ended with
    | true => exact Or.inl rfl
    | false => exact Or.inr ⟨s, hi, hl⟩

@[simp] theorem cluster_mark (d : Draining) (i : Nat) : (d.mark i).cluster = d.cluster := by
  unfold mark
  repeat' split
  all_goals rfl

theorem cluster_release (hs : d.server.slots.Sound) (i : Nat) :
    (d.release i).cluster = d.cluster := by
  unfold release
  split
  · exact Locks.store_release d.server.node hs _ _
  · rfl

/-- What a live session lists passes to its end. -/
theorem Placed.mark (h : d.Placed c p) (hd : d.Proper) (i : Nat) : (d.mark i).Placed c p := by
  rcases mark_cases d i with hm | ⟨s, hi, hl⟩
  · rwa [hm]
  rw [mark_of_live hi hl]
  have hs := Server.sessions_setSession hi s.close
  have hleft : d.left i = [] := Classical.byContradiction fun hne => by
    obtain ⟨t, ht, he⟩ := hd.ended i hne
    cases hi.symm.trans ht
    cases hl.symm.trans he
  by_cases e : s.client = c ∧ p ∈ s.held
  · obtain ⟨rfl, hp⟩ := e
    obtain ⟨m, hm⟩ := Dict.getElem?_of_mem hp
    obtain ⟨hh, hcr, hno⟩ := h.of_lists hd ⟨s, hi, rfl, hm⟩
    refine .owed i ⟨m, hh⟩ hcr ⟨s.close, (hs i).trans (if_pos rfl), rfl, ?_⟩
      (not_lists_of_set hi hs hd hl rfl (by simp [Session.close])) fun j ho => ?_
    · simpa using hp
    · refine Classical.byContradiction fun hne => ?_
      obtain ⟨t, ht, htc, hpl⟩ := ho
      exact hno j ⟨t, ((hs j).trans (if_neg hne)).symm.trans ht, htc, by simpa [hne] using hpl⟩
  · refine h.of (fun _ => Iff.rfl) (fun _ => rfl) (lists_iff_of_set hi hs rfl fun hcl => ?_)
      fun j => owes_iff_of_set hi hs rfl fun t ht htc => ?_
    · have hp : p ∉ s.held := fun hp => e ⟨hcl, hp⟩
      simp [Session.close, Std.ExtTreeMap.getElem?_eq_none hp]
    · by_cases hj : j = i
      · subst hj
        cases hi.symm.trans ht
        have hp : p ∉ s.held := fun hp => e ⟨htc, hp⟩
        simp [hleft, hp]
      · simp [hj]

/-- What the end of a session lets go was on the list of that session, and belongs nowhere
after that. -/
theorem Placed.release (h : d.Placed c p) (hd : d.Proper) (i : Nat) :
    (d.release i).Placed c p := by
  rcases release_cases d i with hr | ⟨s, q, ps, hi, hq⟩
  · rwa [hr]
  rw [release_of_left hi hq]
  have hh := fun k => Locks.holds_release d.server.node (l := d.server.locks d.cluster) hd.sound
    s.client c q p k
  have hnd : (q :: ps).Nodup := hq ▸ hd.nodup i
  by_cases e : s.client = c ∧ p = q
  · obtain ⟨rfl, rfl⟩ := e
    obtain ⟨hn, -, hnl, hu⟩ := h.of_owes ⟨s, hi, rfl, hq ▸ List.mem_cons_self⟩
    refine .nowhere (fun ho => ?_) hnl fun j ho => ?_
    · obtain ⟨k, hk⟩ := ho
      exact ((hh k).1 hk).2 ⟨hd.stored _ p hn, rfl, rfl⟩
    · obtain ⟨t, ht, htc, hp⟩ := ho
      by_cases hj : j = i
      · subst hj
        exact (List.nodup_cons.1 hnd).1 (by simpa using hp)
      · exact hj (hu j ⟨t, ht, htc, by simpa [hj] using hp⟩)
  · have hold : ∀ k, ((d.server.locks d.cluster).release d.server.store s.client q).2.slots.Holds
        c p k ↔ d.server.slots.Holds c p k := fun k =>
      (hh k).trans (and_iff_left fun h => e ⟨h.2.1.symm, h.2.2⟩)
    refine h.of hold (fun hn => credit_moved_of_owner hn ((exists_congr hold).2 hn))
      (fun _ _ => Iff.rfl) fun j => ?_
    refine exists_congr fun t => and_congr_right fun ht => and_congr_right fun htc => ?_
    by_cases hj : j = i
    · subst hj
      cases hi.symm.trans ht
      have hne : p ≠ q := fun hpq => e ⟨htc, hpq⟩
      simp [hq, hne]
    · simp [hj]

/-! ## All that stands -/

theorem stored_after (hd : d.Proper)
    (hc : s.Calls d.server.node (d.server.locks d.cluster) s' l) (c : Client) (p : Path)
    (ho : (d.server.after i s' l).1.Owner c p) : p ∈ l.store.contents := by
  obtain ⟨m, hm⟩ := ho
  have old : d.server.slots.Holds c p m → p ∈ d.cluster.contents := fun h => hd.stored c p ⟨m, h⟩
  cases hc with
  | same hs hh => exact hs ▸ old ((hh c p m).1 hm)
  | opened q _ _ _ _ hs hh => exact (hs p).2 (Or.inl (old ((hh c p m).1 hm).1))
  | acquired q k _ _ hq _ hs hh =>
    rcases (hh c p m).1 hm with hm | ⟨-, rfl, -⟩
    · exact hs ▸ old hm
    · exact hs ▸ hq
  | released q _ _ hs hh | closed _ hs hh => exact hs ▸ old ((hh c p m).1 hm).1
  | deleted q _ _ _ _ hs hh =>
    obtain ⟨hm, hne⟩ := (hh c p m).1 hm
    exact (hs p).2 ⟨old hm, hne⟩

theorem Proper.move {now : Nat} (hd : d.Proper)
    (hm : Server.Move (fun _ => True) now (d.server, d.cluster) x) : (d.moved x).Proper where
  toKept := hm.kept hd.toKept
  sound := hm.sound hd.sound
  leads := by
    obtain ⟨hn, hl⟩ := hm.leads hd.sound
    show x.2.leads x.1.node = true
    rw [hn, Cluster.leads_of_leader_eq hl]
    exact hd.leads
  stored c p ho := by
    cases hm with
    | begin | tend | refresh => exact hd.stored c p ho
    | call op hi =>
      simp only [Server.onSession_of_some hi] at ho ⊢
      exact stored_after hd (Session.calls_call _ hd.sound op) c p ho
    | expire hi _ | terminate _ hi =>
      simp only [Server.terminate, Server.onSession_of_some hi] at ho ⊢
      exact stored_after hd (Session.calls_terminate _ hd.sound) c p ho
    | members _ hc => exact hc ▸ hd.stored c p ho
  nodup := hd.nodup
  ended j hj := by
    obtain ⟨s, hs, he⟩ := hd.ended j hj
    obtain ⟨s', hs', hp⟩ := hm.past hs he
    exact ⟨s', hs', hp.ended⟩

theorem Proper.mark (hd : d.Proper) (i : Nat) : (d.mark i).Proper := by
  rcases mark_cases d i with hm | ⟨s, hi, hl⟩
  · rwa [hm]
  rw [mark_of_live hi hl]
  have hs := Server.sessions_setSession hi s.close
  refine ⟨hd.toKept.set hi s.close rfl rfl (fun he => nomatch he) (fun _ => rfl) d.server.slots,
    hd.sound, hd.leads, hd.stored, fun j => ?_, fun j hj => ?_⟩
  · by_cases e : j = i
    · subst e
      simpa using Std.ExtTreeMap.nodup_keys
    · simpa [e] using hd.nodup j
  · by_cases e : j = i
    · exact ⟨s.close, (hs j).trans (if_pos e), rfl⟩
    · obtain ⟨t, ht, he⟩ := hd.ended j (by simpa [e] using hj)
      exact ⟨t, ((hs j).trans (if_neg e)).trans ht, he⟩

theorem Proper.release (hd : d.Proper) (i : Nat) : (d.release i).Proper := by
  rcases release_cases d i with hr | ⟨s, q, ps, hi, hq⟩
  · rwa [hr]
  rw [release_of_left hi hq]
  have hst : ((d.server.locks d.cluster).release d.server.store s.client q).2.store = d.cluster :=
    Locks.store_release d.server.node hd.sound s.client q
  have hnd : (q :: ps).Nodup := hq ▸ hd.nodup i
  refine ⟨hd.toKept.slots _, Locks.sound_release d.server.node hd.sound s.client q,
    (congrArg (·.leads d.server.node) hst).trans hd.leads, fun c p ho => ?_, fun j => ?_,
    fun j hj => ?_⟩
  · obtain ⟨k, hk⟩ := ho
    have hk := (Locks.holds_release d.server.node (l := d.server.locks d.cluster) hd.sound s.client
      c q p k).1 hk
    exact (congrArg (p ∈ ·.contents) hst).mpr (hd.stored c p ⟨k, hk.1⟩)
  · by_cases e : j = i
    · subst e
      simpa using (List.nodup_cons.1 hnd).2
    · simpa [e] using hd.nodup j
  · by_cases e : j = i
    · subst e
      exact hd.ended j (by simp [hq])
    · exact hd.ended j (by simpa [e] using hj)

theorem Proper.step (hd : d.Proper) (hs : Step d d') : d'.Proper := by
  cases hs with
  | move hm => exact hd.move hm
  | mark i => exact hd.mark i
  | release i => exact hd.release i

theorem Proper.steps (hd : d.Proper) (hs : Steps d d') : d'.Proper := by
  induction hs with
  | refl => exact hd
  | tail _ hs ih => exact ih.step hs

theorem Placed.step (h : d.Placed c p) (hd : d.Proper) (hs : Step d d')
    (hcut : ¬ d.Cuts d' c p) : d'.Placed c p := by
  cases hs with
  | move hm => exact h.move hd hm hcut
  | mark i => exact h.mark hd i
  | release i => exact h.release hd i

theorem proper_fresh (listen : Addr) (lease : LeaseConfig) {n : Node} {k : Cluster}
    (hl : k.leads n = true) : (fresh n listen lease k).Proper where
  toKept := Server.kept_fresh n listen lease
  sound := Slots.sound_empty
  leads := hl
  stored c p ho := ho.elim fun m hm => absurd hm (Slots.not_holds_empty c p m)
  nodup _ := List.nodup_nil
  ended _ hi := absurd rfl hi

theorem placed_fresh (n : Node) (listen : Addr) (lease : LeaseConfig) (k : Cluster) (c : Client)
    (p : Path) : (fresh n listen lease k).Placed c p := by
  refine .nowhere (fun ho => ?_) (fun i m hi => ?_) fun i hi => ?_
  · exact ho.elim fun m hm => absurd hm (Slots.not_holds_empty c p m)
  · obtain ⟨s, hs, -⟩ := hi
    simp [fresh] at hs
  · obtain ⟨s, hs, -⟩ := hi
    simp [fresh] at hs

/-! ## What fits between the steps -/

theorem exists_steps_moves {W : Client → Prop} {now : Nat} {y : Server × Cluster}
    (hm : Server.Moves W now (d.server, d.cluster) y) :
    ∃ d', Steps d d' ∧ (d'.server, d'.cluster) = y ∧ d'.left = d.left := by
  induction hm with
  | refl => exact ⟨d, .refl, rfl, rfl⟩
  | tail _ hm ih =>
    obtain ⟨d', hs, rfl, hleft⟩ := ih
    exact ⟨_, hs.tail (.move (hm.mono fun _ _ => trivial)), rfl, hleft⟩

/-- Whatever is done at the server, requests of all kinds included, is steps. -/
theorem exists_steps_does (hd : d.Proper) (now : Nat) (a : Server.Act) :
    ∃ d', Steps d d' ∧ (d'.server, d'.cluster) = d.server.does d.cluster now a ∧
      d'.left = d.left :=
  exists_steps_moves (Server.moves_does hd.toKept now a)

/-- The releases of an end, with nothing between them, drain what is left. -/
theorem iterate_release (ps : List Path) (hi : d.server.sessions[i]? = some s)
    (hp : d.left i = ps) :
    let l := Session.drain d.server.store s.client (d.server.locks d.cluster) ps
    let d' := (fun d => release d i)^[ps.length] d
    d'.server = { d.server with slots := l.slots } ∧ d'.cluster = l.store ∧ d'.left i = [] := by
  induction ps generalizing d with
  | nil => exact ⟨rfl, rfl, hp⟩
  | cons p ps ih =>
    have hr := release_of_left hi hp
    have hi' : (d.release i).server.sessions[i]? = some s := by
      rw [hr]
      exact hi
    obtain ⟨hv, hk, hl⟩ := ih hi' (by rw [hr]; exact Function.update_self i ps d.left)
    rw [hr] at hv hk hl
    refine ⟨?_, ?_, ?_⟩
    · rw [List.length_cons, Function.iterate_succ_apply, hr, hv]
      rfl
    · rw [List.length_cons, Function.iterate_succ_apply, hr, hk]
      rfl
    · rw [List.length_cons, Function.iterate_succ_apply, hr, hl]

/-- An end with nothing between its steps is the end in one go. -/
theorem terminate_eq_iterate (hi : d.server.sessions[i]? = some s) (hl : s.ended = false) :
    let d' := (fun d => release d i)^[s.held.keys.length] (d.mark i)
    (d'.server, d'.cluster) = d.server.terminate d.cluster i ∧ d'.left i = [] := by
  have hm := mark_of_live hi hl
  have hi' : (d.mark i).server.sessions[i]? = some s.close := by
    rw [hm]
    exact (Server.sessions_setSession hi s.close i).trans (if_pos rfl)
  obtain ⟨hv, hk, hleft⟩ := iterate_release s.held.keys hi'
    (by rw [hm]; exact Function.update_self i _ d.left)
  refine ⟨?_, hleft⟩
  rw [hv, hk, Server.terminate_of_live hi hl, hm]
  rfl

end Draining

end LockCell
