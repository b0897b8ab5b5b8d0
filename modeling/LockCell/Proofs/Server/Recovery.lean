import LockCell.Proofs.Lock.ReaderWriter
import LockCell.Proofs.Server.OneLeader

/-
  LockCell.Proofs.Server.Recovery — a client takes its locks back, all or none.

  A keep-alive with claims from a client without a live session begins a new one, which
  takes the claimed locks one by one. Those taken so far are told by `Took`: their records
  have one owner more, all others are as they were. A lock can be taken if its claim could
  have been met at the outset (`Locks.Claimable`), whatever was taken before, for no path
  is claimed twice. So the recovery gets through if all claims can be met, and ends at the
  first that cannot (`reclaim_took`).

  A new session that does not get through ends, and that gives back what it took:
  `without` undoes `grant` (`Record.without_grant`), and every lock reads as it did
  (`Took.drained`). A lock that was asked for in vain may have got a free record, which
  reads the same as none (`Locks.here`).

  The server may be in any state that it can come to (`history`), whoever else wrote to the
  store in the meantime: all that is needed is that the table is sound.
-/

namespace LockCell

/-- An owner that goes leaves the record as it was before it came. -/
theorem Record.without_grant {r : Record} (h : r.Sound) {c : Client} {m : Mode}
    (ha : r.Admits m) (hc : c ∉ r.owners) : (r.grant c m).without c = r := by
  have ho : (r.owners.insert c).erase c = r.owners := by
    refine Std.ExtTreeSet.ext_mem fun d => ?_
    simp only [Std.ExtTreeSet.mem_erase, Std.ExtTreeSet.mem_insert, ne_eq,
      Std.LawfulEqCmp.compare_eq_iff_eq]
    constructor
    · exact fun hd => hd.2.resolve_left hd.1
    · exact fun hd => ⟨fun e => hc (e ▸ hd), .inr hd⟩
  have hm : (if r.owners.isEmpty then Mode.free else m) = r.mode := by
    by_cases hf : r.mode = .free
    · have he : r.owners.isEmpty = true := by
        refine Std.ExtTreeSet.isEmpty_iff.2 (Std.ExtTreeSet.eq_empty_iff_forall_not_mem.2 ?_)
        exact fun d hd => not_free_of_mem h hd hf
      rw [if_pos he, hf]
    · obtain ⟨d, hd⟩ := exists_mem_of_not_free h hf
      have he : ¬ r.owners.isEmpty = true := fun he =>
        Std.ExtTreeSet.ne_empty_of_mem hd (Std.ExtTreeSet.isEmpty_iff.1 he)
      obtain ⟨hs, rfl⟩ := ha.resolve_left hf
      rw [if_neg he, hs]
  simp only [grant, without, ho, hm]

namespace Locks

variable {n : Node} {l l' : Locks Cluster} {c : Client} {p q : Path} {m : Mode}

/-- The client could take the lock in that mode. -/
structure Claimable (l : Locks Cluster) (c : Client) (p : Path) (m : Mode) : Prop where
  mode : m = .exclusive ∨ m = .shared
  stored : p ∈ l.store.contents
  admits : ∀ r, l.slots.record? p = some r → c ∉ r.owners ∧ r.Admits m

theorem claimable_iff : l.Claimable c p m ↔
    m.requestable = true ∧ p ∈ l.store.contents ∧ c ∉ (l.here p).owners ∧ (l.here p).Admits m := by
  have hm : m.requestable = true ↔ m = .exclusive ∨ m = .shared := by
    cases m <;> decide
  have hr : (∀ r, l.slots.record? p = some r → c ∉ r.owners ∧ r.Admits m) ↔
      c ∉ (l.here p).owners ∧ (l.here p).Admits m := by
    unfold here
    cases l.slots.record? p with
    | none => simp [Record.free, Record.Admits]
    | some r => simp
  rw [hm, ← hr]
  exact ⟨fun h => ⟨h.mode, h.stored, h.admits⟩, fun h => ⟨h.1, h.2.1, h.2.2⟩⟩

theorem acquire_of_claimable (hl : l.slots.Sound) (h : l.Claimable c p m) :
    l.acquire (Cluster.storeOf n) c p m =
      (.ok true, ⟨l.slots.put p (some ((l.here p).grant c m)), l.store⟩) := by
  obtain ⟨hm, hp, hc, ha⟩ := claimable_iff.1 h
  rw [acquire_eq n hl, if_pos hm, if_pos hp, if_neg hc, if_pos ha]

theorem here_put (p q : Path) (r : Option Record) (k : Cluster) :
    (Locks.mk (l.slots.put p r) k).here q = if q = p then r.getD (.free q) else l.here q := by
  unfold here
  rw [Slots.record?_put]
  split <;> rfl

theorem sound_call (n : Node) (hl : l.slots.Sound) (c : Client) (op : LockOp) :
    (l.call (Cluster.storeOf n) c op).2.slots.Sound := by
  cases op with
  | openLock p => exact sound_openLock n hl p
  | acquireLock p m => exact sound_acquire n hl c p m
  | releaseLock p => exact sound_release n hl c p
  | deleteLock p => exact sound_delete n hl c p

/-- A slot whose record reads the same leaves every lock as it was. -/
theorem here_put_same (r : Option Record) (h : r.getD (.free p) = l.here p) (k : Cluster)
    (q : Path) : (Locks.mk (l.slots.put p r) k).here q = l.here q := by
  rw [here_put]
  split
  · rename_i e
    rw [e, h]
  · rfl

/-- A lock that cannot be taken reads as it did. -/
theorem acquire_of_not_claimable (hl : l.slots.Sound) (h : ¬ l.Claimable c p m) :
    (l.acquire (Cluster.storeOf n) c p m).1 ≠ .ok true ∧
      ∀ q, (l.acquire (Cluster.storeOf n) c p m).2.here q = l.here q := by
  rw [acquire_eq n hl]
  split
  · split
    · split
      · exact ⟨by simp, here_put_same (some _) rfl _⟩
      · split
        · exact absurd (claimable_iff.2 ⟨‹_›, ‹_›, ‹_›, ‹_›⟩) h
        · exact ⟨by simp, here_put_same (some _) rfl _⟩
    · exact ⟨by simp, here_put_same _ rfl _⟩
  · exact ⟨by simp, fun _ => rfl⟩

theorem here_release (hl : l.slots.Sound) (c : Client) (p q : Path) :
    (l.release (Cluster.storeOf n) c p).2.here q =
      if q = p ∧ p ∈ l.store.contents ∧ c ∈ (l.here p).owners then (l.here q).without c
      else l.here q := by
  by_cases h : p ∈ l.store.contents ∧ c ∈ (l.here p).owners
  · obtain ⟨hp, hc⟩ := h
    obtain ⟨k, r, hr, hc', -⟩ := (mem_here_iff c p).1 hc
    have hh : l.here p = r := by simp [here, hr]
    rw [release_eq n hl, if_pos hp, hr]
    simp only [if_neg (Record.not_free_of_mem (hl p r hr) hc'), if_pos hc', here_put, hp, hc,
      and_true]
    split
    · rename_i e
      rw [e, hh]
      rfl
    · rfl
  · rw [if_neg fun hx => h hx.2, release_eq n hl]
    split
    · rename_i hp
      split
      · rename_i hr
        exact here_put_same none (by simp [here, hr]) _ q
      · rename_i r hr
        have hh : l.here p = r := by simp [here, hr]
        split
        · exact here_put_same (some r) hh.symm _ q
        · split
          · rename_i hc
            exact absurd ⟨hp, hh ▸ hc⟩ h
          · exact here_put_same (some r) hh.symm _ q
    · exact here_put_same _ rfl _ q

/-- The end of a session gives back what the client has of its list, and no more. -/
theorem here_drain (ps : List Path) (hl : l.slots.Sound) (c : Client) (q : Path) :
    (Session.drain (Cluster.storeOf n) c l ps).here q =
      if q ∈ ps ∧ q ∈ l.store.contents ∧ c ∈ (l.here q).owners then (l.here q).without c
      else l.here q := by
  induction ps generalizing l with
  | nil => simp [Session.drain]
  | cons p ps ih =>
    rw [Session.drain_cons, ih (sound_release n hl c p), store_release n hl, here_release hl]
    by_cases hp : q = p ∧ p ∈ l.store.contents ∧ c ∈ (l.here p).owners
    · -- once released, it is not released again
      obtain ⟨rfl, hq, hc⟩ := hp
      have hn : c ∉ ((l.here q).without c).owners := fun hx =>
        ((Record.mem_without _ _ _).1 hx).2 rfl
      simp [hq, hc, hn]
    · have hiff : (q ∈ p :: ps ∧ q ∈ l.store.contents ∧ c ∈ (l.here q).owners) ↔
          (q ∈ ps ∧ q ∈ l.store.contents ∧ c ∈ (l.here q).owners) := by
        rw [List.mem_cons]
        constructor
        · rintro ⟨rfl | hq, hx⟩
          · exact absurd ⟨rfl, hx⟩ hp
          · exact ⟨hq, hx⟩
        · exact fun hx => ⟨.inr hx.1, hx.2⟩
      rw [if_neg hp]
      simp only [hiff]

/-! ## Taking locks one by one -/

/-- `l` is `l₀` with the locks of `d` taken by `c`, all of which could be claimed. -/
structure Took (l₀ : Locks Cluster) (c : Client) (d : Dict Mode) (l : Locks Cluster) : Prop where
  store : l.store = l₀.store
  sound : l.slots.Sound
  taken : ∀ p m, d[p]? = some m →
    l₀.Claimable c p m ∧ l.slots.record? p = some ((l₀.here p).grant c m)
  rest : ∀ p, p ∉ d → l.slots.record? p = l₀.slots.record? p

variable {l₀ : Locks Cluster} {d : Dict Mode}

theorem Took.start (h : l.slots.Sound) (c : Client) : l.Took c ∅ l where
  store := rfl
  sound := h
  taken p m hp := by simp at hp
  rest _ _ := rfl

/-- What was taken so far is no obstacle to another path. -/
theorem Took.claimable_iff (h : l₀.Took c d l) (hp : p ∉ d) :
    l.Claimable c p m ↔ l₀.Claimable c p m := by
  constructor <;> intro hc <;> refine ⟨hc.mode, ?_, ?_⟩
  · exact h.store ▸ hc.stored
  · exact h.rest p hp ▸ hc.admits
  · exact h.store.symm ▸ hc.stored
  · exact (h.rest p hp).symm ▸ hc.admits

theorem Took.acquire (h : l₀.Took c d l) (hp : p ∉ d) (hc : l₀.Claimable c p m) :
    ∃ l', l.acquire (Cluster.storeOf n) c p m = (.ok true, l') ∧
      l₀.Took c (d.insert p m) l' := by
  have hs := sound_acquire n h.sound c p m
  have ha := acquire_of_claimable (n := n) h.sound ((h.claimable_iff hp).2 hc)
  have hh : l.here p = l₀.here p := by rw [here, here, h.rest p hp]
  rw [ha, hh] at hs
  rw [ha, hh]
  refine ⟨_, rfl, h.store, hs, fun q k hq => ?_, fun q hq => ?_⟩
  · rw [Slots.record?_put]
    obtain ⟨rfl, rfl⟩ | ⟨hne, hq⟩ := Dict.getElem?_insert_eq_some_iff.1 hq
    · rw [if_pos rfl]
      exact ⟨hc, rfl⟩
    · rw [if_neg hne]
      exact h.taken q k hq
  · rw [Slots.record?_put]
    have hq := mt Dict.mem_insert_iff.2 hq
    rw [if_neg fun e => hq (.inl e), h.rest q fun hd => hq (.inr hd)]

/-- What was taken is given back, and all reads as at the outset. -/
theorem Took.drained (h : l₀.Took c d l) (h₀ : l₀.slots.Sound) (hl : l'.slots.Sound)
    (hs : l'.store = l.store) (hh : ∀ q, l'.here q = l.here q) (q : Path) :
    (Session.drain (Cluster.storeOf n) c l' d.keys).here q = l₀.here q := by
  rw [here_drain d.keys hl, hh, hs, h.store]
  simp only [Std.ExtTreeMap.mem_keys]
  by_cases hq : q ∈ d
  · obtain ⟨m, hm⟩ := Dict.getElem?_of_mem hq
    obtain ⟨hc, hr⟩ := h.taken q m hm
    obtain ⟨-, hp, hn, ha⟩ := Locks.claimable_iff.1 hc
    have hh : l.here q = (l₀.here q).grant c m := by simp [here, hr]
    have ho : c ∈ ((l₀.here q).grant c m).owners := (Record.mem_grant _ _ _ _).2 (.inl rfl)
    rw [hh, if_pos ⟨hq, hp, ho⟩]
    exact Record.without_grant (sound_here h₀ q) ha hn
  · rw [if_neg fun hx => hq hx.1, here, here, h.rest q hq]

end Locks

namespace Session

variable {σ : Type} {S : Store σ} {s : Session} {l l' : Locks σ} {p : Path} {m : Mode}

theorem acquire_of_true (hs : s.ended = false) (hp : p ∉ s.held)
    (ha : l.acquire S s.client p m = (.ok true, l')) :
    s.acquire S l p m = (.ok true, { s with held := s.held.insert p m }, l') := by
  simp only [acquire, whenLive, hs, Bool.false_eq_true, if_false, hp, ha]

theorem acquire_of_ne_true (hs : s.ended = false) (hp : p ∉ s.held)
    (ha : (l.acquire S s.client p m).1 ≠ .ok true) :
    s.acquire S l p m =
      ((l.acquire S s.client p m).1, s, (l.acquire S s.client p m).2) := by
  simp only [acquire, whenLive, hs, Bool.false_eq_true, if_false, hp]

end Session

namespace Server

variable {v : Server} {k : Cluster} {i : Nat} {s : Session} {c : Client} {now : Nat}
  {claimed d : Dict Mode} {l : Locks Cluster} {p : Path} {m : Mode}

/-- The server once the session of that number, which was `s`, has the list `d`, and the table
is that of `l`. -/
def holding (v : Server) (i : Nat) (s : Session) (d : Dict Mode) (l : Locks Cluster) : Server :=
  (v.after i { s with held := d } l).1

theorem onSession_holding {α : Type} (hi : v.sessions[i]? = some s) (hl : l.store = k) (a : α)
    (f : Session → Locks Cluster → α × Session × Locks Cluster) {r : α} {s' : Session}
    {l' : Locks Cluster} (hl' : l'.store = k) (hf : f { s with held := d } l = (r, s', l')) :
    (v.holding i s d l).onSession k i a f = (r, (v.after i s' l').1, k) := by
  have hs : (v.holding i s d l).sessions[i]? = some { s with held := d } := by
    rw [holding, sessions_after hi, if_pos rfl]
  have hk : (v.holding i s d l).locks k = l := by
    rw [← hl]
    rfl
  rw [onSession_of_some hs, hk, hf, hl']
  simp [holding, after, setSession]

theorem reclaim_cons_of_true {v' : Server} {k' : Cluster} (claims : List (Path × Mode))
    (h : (v.onSession k i (.ok false) fun s l => s.acquire v.store l p m) = (.ok true, v', k')) :
    v.reclaim k i ((p, m) :: claims) = v'.reclaim k' i claims := by
  rw [reclaim, h]

theorem reclaim_cons_of_ne_true {r : Except Error Bool} {v' : Server} {k' : Cluster}
    (claims : List (Path × Mode)) (hr : r ≠ .ok true)
    (h : (v.onSession k i (.ok false) fun s l => s.acquire v.store l p m) = (r, v', k')) :
    v.reclaim k i ((p, m) :: claims) = (false, v', k') := by
  simp only [reclaim, h]

/-- What a list of claims comes to: the session has all that was claimed, or it stopped at a
claim that could not be met, with what it had taken until then. -/
inductive Reclaims (v : Server) (k : Cluster) (i : Nat) (s : Session) (claimed : Dict Mode) :
    Bool × Server × Cluster → Prop
  | all {l : Locks Cluster} : (v.locks k).Took s.client claimed l →
      Reclaims v k i s claimed (true, v.holding i s claimed l, k)
  | stopped {d : Dict Mode} {l l' : Locks Cluster} (p : Path) (m : Mode) :
      claimed[p]? = some m → ¬ (v.locks k).Claimable s.client p m →
      (v.locks k).Took s.client d l → l'.slots.Sound → l'.store = l.store →
      (∀ q, l'.here q = l.here q) → Reclaims v k i s claimed (false, v.holding i s d l', k)

/-- `claimed` is what the session has and what is still to come. -/
theorem reclaims_reclaim (claimed : Dict Mode) (hi : v.sessions[i]? = some s)
    (hs : s.ended = false) {claims : List (Path × Mode)} (hn : (claims.map Prod.fst).Nodup)
    (ht : (v.locks k).Took s.client d l) (hd : ∀ x ∈ claims, x.1 ∉ d)
    (hc : ∀ p m, claimed[p]? = some m ↔ d[p]? = some m ∨ (p, m) ∈ claims) :
    v.Reclaims k i s claimed ((v.holding i s d l).reclaim k i claims) := by
  induction claims generalizing d l with
  | nil =>
    have he : d = claimed := Std.ExtTreeMap.ext_getElem? fun p => by
      refine Option.ext fun m => ?_
      simpa using (hc p m).symm
    subst he
    exact .all ht
  | cons x claims ih =>
    obtain ⟨p, m⟩ := x
    obtain ⟨hp, hd⟩ : p ∉ d ∧ ∀ x ∈ claims, x.1 ∉ d := List.forall_mem_cons.1 hd
    obtain ⟨hnew, hn⟩ : p ∉ claims.map Prod.fst ∧ _ := List.nodup_cons.1 hn
    have hlive : Session.ended { s with held := d } = false := hs
    by_cases hm : (v.locks k).Claimable s.client p m
    · obtain ⟨l', ha, ht'⟩ := ht.acquire (n := v.node) hp hm
      have hr := onSession_holding hi ht.store (.ok false) (fun s l => s.acquire v.store l p m)
        ht'.store (Session.acquire_of_true (s := { s with held := d }) hlive hp ha)
      have he : (v.holding i s d l).reclaim k i ((p, m) :: claims) =
          (v.holding i s (d.insert p m) l').reclaim k i claims := reclaim_cons_of_true claims hr
      rw [he]
      refine ih hn ht' (fun x hx hxd => ?_) fun q j => ?_
      · rcases Dict.mem_insert_iff.1 hxd with e | hxd
        · exact hnew (e ▸ List.mem_map_of_mem (f := Prod.fst) hx)
        · exact hd x hx hxd
      · rw [hc, Dict.getElem?_insert_eq_some_iff, List.mem_cons, Prod.mk.injEq]
        by_cases e : q = p
        · have hq : d[p]? = none := Std.ExtTreeMap.getElem?_eq_none hp
          simp [e, hq]
        · simp [e]
    · obtain ⟨hne, hh⟩ := Locks.acquire_of_not_claimable (n := v.node) ht.sound
        (mt (ht.claimable_iff hp).1 hm)
      have hstore := Locks.store_acquire v.node ht.sound s.client p m
      have hr := onSession_holding hi ht.store (.ok false) (fun s l => s.acquire v.store l p m)
        (hstore.trans ht.store)
        (Session.acquire_of_ne_true (s := { s with held := d }) hlive hp hne)
      have he : (v.holding i s d l).reclaim k i ((p, m) :: claims) =
          (false, v.holding i s d _, k) := reclaim_cons_of_ne_true claims hne hr
      rw [he]
      exact .stopped p m ((hc p m).2 (.inr List.mem_cons_self)) hm ht
        (Locks.sound_acquire v.node ht.sound s.client p m) hstore hh

/-! ## Recoveries -/

/-- The server with one session more, which its client's name now stands for. -/
structure Joined (v : Server) (s : Session) (v' : Server) : Prop where
  sessions : v'.sessions = v.sessions.push s
  registry : v'.registry = v.registry.insert s.client v.sessions.size

theorem joined_push_after (v : Server) (now : Nat) (s : Session) (l : Locks Cluster) :
    v.Joined s ((v.push s.client now).after v.sessions.size s l).1 where
  sessions := by
    refine Array.ext_getElem? fun j => ?_
    have hi : (v.push s.client now).sessions[v.sessions.size]? =
        some (.begin s.client v.lease now) := by
      rw [sessions_push, if_pos rfl]
    rw [sessions_after hi, sessions_push, Array.getElem?_push]
    split <;> rfl
  registry := rfl

theorem holding_self (hi : v.sessions[i]? = some s) : v.holding i s s.held (v.locks k) = v := by
  have h : v.sessions.setIfInBounds i s = v.sessions := by
    refine Array.ext_getElem? fun j => ?_
    have hj := sessions_setSession hi s j
    rw [setSession] at hj
    rw [hj]
    split
    · rename_i e
      rw [e, hi]
    · rfl
  simp [holding, after, setSession, locks, h]

theorem terminate_holding (hi : v.sessions[i]? = some s) (hs : s.ended = false)
    (hl : l.slots.Sound) (hk : l.store = k) :
    (v.holding i s d l).terminate k i =
      ((v.after i s.close (Session.drain v.store s.client l d.keys)).1, k) := by
  have ht : Session.terminate v.store { s with held := d } l =
      (s.close, Session.drain v.store s.client l d.keys) := by
    simp [Session.terminate, hs, Session.close]
  have hd : (Session.drain v.store s.client l d.keys).store = k :=
    (Session.store_drain v.node s.client d.keys hl).trans hk
  have ho := onSession_holding hi hk () (fun s l => ((), s.terminate v.store l)) hd
    (congrArg (Prod.mk ()) ht)
  exact congrArg Prod.snd ho

/-- All claims were met: the new session has them, and they have its client. -/
structure Regained (v : Server) (k : Cluster) (c : Client) (claimed : Dict Mode) (now : Nat)
    (v' : Server) : Prop
    extends v.Joined { Session.begin c v.lease now with held := claimed } v' where
  granted : ∀ p m, claimed[p]? = some m →
    v'.slots.record? p = some (((v.locks k).here p).grant c m)
  others : ∀ p, p ∉ claimed → v'.slots.record? p = v.slots.record? p

/-- A claim was not met: the new session is over, and all locks read as they did. -/
structure Refused (v : Server) (k : Cluster) (c : Client) (now : Nat) (v' : Server) : Prop
    extends v.Joined (Session.begin c v.lease now).close v' where
  here : ∀ p, (v'.locks k).here p = (v.locks k).here p

/-- A recovery is exact, and it is all or nothing. -/
theorem recover_exact (hv : v.slots.Sound)
    (hc : ∀ i s, v.session? c = some (i, s) → s.ended = true) (claimed : Dict Mode) (now : Nat) :
    ∃ expired v', v.recover k c claimed now = (.ok ⟨v.lease.length, expired⟩, v', k) ∧
      (expired = false ↔ ∀ p m, claimed[p]? = some m → (v.locks k).Claimable c p m) ∧
      (expired = false → v.Regained k c claimed now v') ∧
      (expired = true → v.Refused k c now v') := by
  have hcreate : v.create c now = .ok (v.sessions.size, v.push c now) := by
    unfold create
    split
    · rename_i i s hs
      rw [if_pos (hc i s hs)]
    · rfl
  have hi : (v.push c now).sessions[v.sessions.size]? = some (.begin c v.lease now) := by
    rw [sessions_push, if_pos rfl]
  have hn : (claimed.toList.map Prod.fst).Nodup := by
    rw [Std.ExtTreeMap.map_fst_toList_eq_keys]
    exact Std.ExtTreeMap.distinct_keys.imp fun h e => h (by subst e; exact Std.ReflCmp.compare_self)
  have hr := reclaims_reclaim (k := k) claimed hi rfl hn (.start hv c) (by simp) (by simp)
  have hstart := holding_self (k := k) hi
  have hh : (Session.begin c v.lease now).held = ∅ := rfl
  rw [hh] at hstart
  rw [hstart] at hr
  simp only [recover, hcreate]
  generalize (v.push c now).reclaim k v.sessions.size claimed.toList = x at hr
  cases hr with
  | all ht =>
    refine ⟨false, _, rfl, ?_, fun _ => ?_, nofun⟩
    · exact ⟨fun _ p m hp => (ht.taken p m hp).1, fun _ => rfl⟩
    · exact { joined_push_after v now { Session.begin c v.lease now with held := claimed } _ with
        granted := fun p m hp => (ht.taken p m hp).2
        others := fun p hp => ht.rest p hp }
  | @stopped d l l' p m hp hm ht hl hs hh =>
    have hd := ht.drained (n := v.node) hv hl hs hh
    have he := terminate_holding (k := k) (d := d) hi rfl hl (hs.trans ht.store)
    simp only [he]
    refine ⟨true, _, rfl, ?_, nofun, fun _ => ?_⟩
    · simpa using ⟨p, m, hp, hm⟩
    · exact { joined_push_after v now (Session.begin c v.lease now).close _ with
        here := hd }

theorem keepAlive_eq_recover (hc : ∀ i s, v.session? c = some (i, s) → s.ended = true)
    (k : Cluster) (claimed : Dict Mode) :
    v.keepAlive k c (some claimed) now =
      (.done (v.recover k c claimed now).1, (v.recover k c claimed now).2) := by
  unfold keepAlive
  split
  · rename_i h
    cases h
  · rename_i h
    cases h
  · rename_i i s d hs e
    cases e
    rw [if_pos (hc i s hs)]
  · rename_i d _ e
    cases e
    rfl

/-! ## All states of a server -/

/-- One thing done at a server or at its lock table. -/
inductive Deed where
  | act (a : Act)
  /-- The table is called on directly. -/
  | table (c : Client) (op : LockOp)

def performs (v : Server) (k : Cluster) (now : Nat) : Deed → Server
  | .act a => (v.does k now a).1
  | .table c op => { v with slots := ((v.locks k).call v.store c op).2.slots }

/-- Deeds one after another, each at a time of its own and over the store as it is then:
others may have led and written to it. -/
def history (v : Server) (deeds : List (Nat × Cluster × Deed)) : Server :=
  deeds.foldl (fun v (now, k, d) => v.performs k now d) v

theorem Moves.sound {W : Client → Prop} {x y : Server × Cluster} (hm : Moves W now x y)
    (hs : x.1.slots.Sound) : y.1.slots.Sound := by
  induction hm with
  | refl => exact hs
  | tail _ hm ih => exact hm.sound ih

theorem kept_sound_performs (hv : v.Kept ∧ v.slots.Sound) (k : Cluster) (now : Nat) (d : Deed) :
    (v.performs k now d).Kept ∧ (v.performs k now d).slots.Sound := by
  cases d with
  | act a =>
    have hm := moves_does (k := k) hv.1 now a
    exact ⟨hm.kept hv.1, hm.sound hv.2⟩
  | table c op => exact ⟨hv.1.slots _, Locks.sound_call v.node hv.2 c op⟩

theorem kept_sound_history (hv : v.Kept ∧ v.slots.Sound) (deeds : List (Nat × Cluster × Deed)) :
    (v.history deeds).Kept ∧ (v.history deeds).slots.Sound := by
  induction deeds generalizing v with
  | nil => exact hv
  | cons d deeds ih => exact ih (kept_sound_performs hv d.2.1 d.1 d.2.2)

/-- **Recovery is exact, and it is all or nothing.** In whatever state the server is, a client
without a live session that claims locks is told that it lives on exactly if every claim could
be met. Then its new session has the claimed locks and no others, and each of them has the
client as one owner more, in the claimed mode. Otherwise the new session is over, and every
lock has the mode and the owners that it had. -/
theorem keepAlive_exact (n : Node) (listen : Addr) (lease : LeaseConfig)
    (deeds : List (Nat × Cluster × Deed)) (k : Cluster) (now : Nat) {c : Client}
    (hc : ∀ i s, (history { node := n, listen, lease } deeds).session? c = some (i, s) →
      s.ended = true) (claimed : Dict Mode) :
    let v := history { node := n, listen, lease } deeds
    ∃ expired v',
      v.keepAlive k c (some claimed) now = (.done (.ok ⟨v.lease.length, expired⟩), v', k) ∧
      (expired = false ↔ ∀ p m, claimed[p]? = some m → (v.locks k).Claimable c p m) ∧
      (expired = false → v.Regained k c claimed now v') ∧
      (expired = true → v.Refused k c now v') := by
  obtain ⟨-, hs⟩ := kept_sound_history ⟨kept_fresh n listen lease, Slots.sound_empty⟩ deeds
  obtain ⟨expired, v', hr, h⟩ := recover_exact hs hc claimed now
  refine ⟨expired, v', ?_, h⟩
  rw [keepAlive_eq_recover hc, hr]

/-- A client loses its lease while another one holds the lock, too. -/
def lapse : List (Nat × Cluster × Deed) :=
  let k := (Cluster.empty.elect "a").commit (.set "/L" [])
  [(0, k, .act (.request (.initSession "x"))), (1, k, .table "y" (.acquireLock "/L" .shared)),
    (2, k, .act (.request (.acquireLock "x" "/L" .shared))), (3, k, .act (.terminate 0))]

theorem keepAlive_exact_of_lapse :
    let v := history { node := "a", listen := "a:1", lease := .fast } lapse
    let k := Cluster.empty.commit (.set "/L" [])
    let claimed : Dict Mode := .ofList [("/L", Mode.shared)]
    (∀ i s, v.session? "x" = some (i, s) → s.ended = true) ∧
      ∃ expired v', v.keepAlive k "x" (some claimed) 4 =
        (.done (.ok ⟨v.lease.length, expired⟩), v', k) ∧
        (expired = false ↔ ∀ p m, claimed[p]? = some m → (v.locks k).Claimable "x" p m) ∧
        (expired = false → v.Regained k "x" claimed 4 v') ∧
        (expired = true → v.Refused k "x" 4 v') := by
  have ha : ((history { node := "a", listen := "a:1", lease := .fast } lapse).session? "x").all
      (fun x => x.2.ended) = true := by
    decide +kernel
  have hc : ∀ i s, (history { node := "a", listen := "a:1", lease := .fast } lapse).session? "x" =
      some (i, s) → s.ended = true := fun i s hs => by
    rw [hs] at ha
    exact ha
  exact ⟨hc, keepAlive_exact "a" "a:1" .fast lapse (Cluster.empty.commit (.set "/L" [])) 4 hc
    (.ofList [("/L", Mode.shared)])⟩

end Server

end LockCell
