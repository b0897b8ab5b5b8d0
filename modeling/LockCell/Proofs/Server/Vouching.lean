import LockCell.Proofs.Server.Recovery

/-
  LockCell.Proofs.Server.Vouching — what a keep-alive with claims vouches for.

  A client that has lost sight of its leader asks with the locks that it claims, and keeps them
  all if it is told that it lives on. The answer vouches for the claims (`Vouches`) if the
  client has no live session: its new one has taken them (`Regained.vouches`). A live session
  is told that it lives on whatever is claimed, and goes on with the list that it has
  (`keepAlive_of_live`). So the claims have to be on that list before (`Enlists`), which they
  are not if the session is younger than the claims, for one, or was left behind when the
  client went to another leader (`not_vouches_of_reinit`).
-/

namespace LockCell

namespace Server

variable {v v' : Server} {k : Cluster} {i : Nat} {s : Session} {c : Client} {now : Nat}
  {claimed : Dict Mode}

/-- The session has the claimed locks in the claimed modes, and the table says so as well. -/
def Backs (v : Server) (c : Client) (s : Session) (claimed : Dict Mode) : Prop :=
  ∀ p m, claimed[p]? = some m → s.held[p]? = some m ∧ v.slots.Holds c p m

/-- The client has a live session with all that it claims. -/
def Vouches (v : Server) (c : Client) (claimed : Dict Mode) : Prop :=
  ∃ i s, v.session? c = some (i, s) ∧ s.ended = false ∧ v.Backs c s claimed

/-- If the client has a live session, that one has all that it claims. -/
def Enlists (v : Server) (c : Client) (claimed : Dict Mode) : Prop :=
  ∀ i s, v.session? c = some (i, s) → s.ended = false → v.Backs c s claimed

theorem Regained.vouches (h : v.Regained k c claimed now v') : v'.Vouches c claimed := by
  refine ⟨v.sessions.size, { Session.begin c v.lease now with held := claimed },
    session?_eq_some_iff.2 ⟨?_, ?_⟩, rfl, fun p m hp => ⟨hp, ?_⟩⟩
  · rw [h.registry]
    exact Std.ExtTreeMap.getElem?_insert_self
  · rw [h.sessions]
    exact Array.getElem?_push_size
  · exact ⟨_, h.granted p m hp, (Record.mem_grant _ _ _ _).2 (.inl rfl), rfl⟩

/-- A live session starts its lease over, and nobody looks at the claims. -/
theorem keepAlive_of_live (hs : v.session? c = some (i, s)) (he : s.ended = false) (k : Cluster)
    (claimed : Dict Mode) (now : Nat) :
    v.keepAlive k c (some claimed) now =
      (.done (.ok ⟨(s.refresh now).lease, false⟩), v.setSession i (s.refresh now), k) := by
  simp [keepAlive, hs, he]

/-- A lease that starts over changes nothing that is vouched for. -/
theorem vouches_refresh_iff (hs : v.session? c = some (i, s)) (he : s.ended = false) (now : Nat) :
    (v.setSession i (s.refresh now)).Vouches c claimed ↔ v.Enlists c claimed := by
  obtain ⟨hr, hi⟩ := session?_eq_some_iff.1 hs
  have hs' : (v.setSession i (s.refresh now)).session? c = some (i, s.refresh now) :=
    session?_eq_some_iff.2 ⟨hr, by rw [sessions_setSession hi, if_pos rfl]⟩
  constructor
  · rintro ⟨j, t, ht, -, hb⟩ j' t' ht' -
    cases hs.symm.trans ht'
    cases hs'.symm.trans ht
    exact hb
  · exact fun h => ⟨i, _, hs', he, h i s hs he⟩

/-- **An answer that the client lives on is worth what its session had before.** In whatever
state the server is, a keep-alive with claims is told that the client lives on if the client
has a live session, whatever it claims, or if all claims can be met. After that it has a live
session with all that it claims, on the list and in the table, exactly if it had no live
session before or that one had it all. -/
theorem vouches_iff_listed (n : Node) (listen : Addr) (lease : LeaseConfig)
    (deeds : List (Nat × Cluster × Deed)) (k : Cluster) (now : Nat) (c : Client)
    (claimed : Dict Mode) :
    let v := history { node := n, listen, lease } deeds
    ∃ answer v', v.keepAlive k c (some claimed) now = (.done (.ok answer), v', k) ∧
      (answer.expired = false ↔ (∃ i s, v.session? c = some (i, s) ∧ s.ended = false) ∨
        ∀ p m, claimed[p]? = some m → (v.locks k).Claimable c p m) ∧
      (answer.expired = false → (v'.Vouches c claimed ↔ v.Enlists c claimed)) := by
  intro v
  obtain ⟨-, hv⟩ : v.Kept ∧ v.slots.Sound :=
    kept_sound_history ⟨kept_fresh n listen lease, Slots.sound_empty⟩ deeds
  by_cases hl : ∃ i s, v.session? c = some (i, s) ∧ s.ended = false
  · obtain ⟨i, s, hs, he⟩ := id hl
    exact ⟨_, _, keepAlive_of_live hs he k claimed now, by simp [hl],
      fun _ => vouches_refresh_iff hs he now⟩
  · have hc : ∀ i s, v.session? c = some (i, s) → s.ended = true := fun i s hs =>
      Bool.of_not_eq_false fun he => hl ⟨i, s, hs, he⟩
    obtain ⟨expired, v', hr, hex, hreg, -⟩ := recover_exact (k := k) hv hc claimed now
    refine ⟨⟨v.lease.length, expired⟩, v', ?_, by simp only [hl, false_or, hex], fun he => ?_⟩
    · rw [keepAlive_eq_recover hc, hr]
    · refine iff_of_true (hreg he).vouches fun i s hs hn => ?_
      cases (hc i s hs).symm.trans hn

/-- A client gets a lock, has its session ended, and begins another one. -/
def reinit : List (Nat × Cluster × Deed) :=
  let k := Cluster.empty.elect "a"
  let k' := k.commit (.set "L" [])
  [(0, k, .act (.request (.initSession "x"))), (1, k, .act (.request (.openLock "x" "L"))),
    (2, k', .act (.request (.acquireLock "x" "L" .exclusive))),
    (3, k', .act (.terminateClient "x")), (4, k', .act (.request (.initSession "x")))]

/-- The client claims its lock and is told that it lives on, with a session that does not have
the lock. -/
theorem not_vouches_of_reinit :
    let v := history { node := "a", listen := "a:1", lease := .fast } reinit
    let k := (Cluster.empty.elect "a").commit (.set "L" [])
    let claimed : Dict Mode := .ofList [("L", Mode.exclusive)]
    k.leads "a" = true ∧
      (∃ answer v', v.keepAlive k "x" (some claimed) 5 = (.done (.ok answer), v', k) ∧
        answer.expired = false ∧ ¬ v'.Vouches "x" claimed) := by
  intro v k claimed
  have ha : (v.session? "x").map (fun x => (x.2.ended, x.2.held.isEmpty)) = some (false, true) := by
    decide +kernel
  obtain ⟨⟨i, s⟩, hs, h⟩ := Option.map_eq_some_iff.1 ha
  obtain ⟨he, hh⟩ := Prod.mk.inj h
  refine ⟨by decide, _, _, keepAlive_of_live hs he k claimed 5, rfl, fun hv => ?_⟩
  have hp := ((vouches_refresh_iff hs he 5).1 hv i s hs he "L" .exclusive (by decide)).1
  rw [Std.ExtTreeMap.isEmpty_iff.1 hh] at hp
  cases hp

end Server

end LockCell
