import LockCell.Proofs.Cluster.Copies
import LockCell.Proofs.Server.OneLeader
import LockCell.Proofs.Server.Refusals

/-
  LockCell.Proofs.Cluster.Redirects — where callers are sent.

  A server that does not lead sends its callers to the leader. The address is that of the
  store's list of members, which is written by registrations, with the address at which
  clients reach the server, and by joins, with whatever address the one that joins has given.
  So a redirect goes where the leader was registered unless the leader has joined since
  (`redirect_exact`); then it goes where the last join says (`not_redirected_of_join`).

  What the list says of a server is told by what was last done to it (`Notice`): a deed keeps
  the two in step (`Tells.does`), and so does a run. A leader's own refusals are of another
  kind (`lead_ne_notLeader`), so whoever is sent away is told the leader's entry
  (`SendsAway.eq_leaderAddr?`).
-/

namespace LockCell

/-! ## A leader sends nobody away -/

namespace Locks

theorem call_ne_notLeader {n : Node} {l : Locks Cluster} (hl : l.store.leads n = true) (c : Client)
    (op : LockOp) (b : Option Addr) :
    (l.call (Cluster.storeOf n) c op).1 ≠ .error (.notLeader b) := by
  intro he
  cases op with
  | openLock p =>
    have hok := (openLock_eq_ok_iff n l p).2 (Or.inr hl)
    simp only [call, hok] at he
    cases he
  | acquireLock p m =>
    simp only [call, acquire] at he
    split at he
    · rw [inSlot_fst, Cluster.has_storeOf] at he
      repeat' split at he
      all_goals simp_all
    · cases he
  | releaseLock p =>
    simp only [call, release, map_eq_error_iff, inSlot_fst, Cluster.has_storeOf] at he
    repeat' split at he
    all_goals simp_all
  | deleteLock p =>
    simp only [call, map_eq_error_iff, delete_eq, hl, if_true] at he
    repeat' split at he
    all_goals cases he

end Locks

theorem Session.call_ne_notLeader {n : Node} {l : Locks Cluster} (hl : l.store.leads n = true)
    (s : Session) (op : LockOp) (b : Option Addr) :
    (s.call (Cluster.storeOf n) l op).1 ≠ .error (.notLeader b) := by
  intro he
  rcases Session.call_eq_error n he with hr | ⟨-, ht⟩
  · cases hr
  · exact Locks.call_ne_notLeader hl s.client op b ht

theorem Server.lead_ne_notLeader {v : Server} {k : Cluster} (hl : k.leads v.node = true)
    (now : Nat) (q : Request) (b : Option Addr) :
    (v.lead k now q).1 ≠ .done (.error (.notLeader b)) := by
  intro he
  rcases Server.lead_eq_error hl he with hu | ⟨c, op, i, s, -, -, hc⟩
  · cases hu
  · exact Session.call_ne_notLeader (l := v.locks k) hl s op b hc

/-! ## Whoever is sent away is told the leader's entry -/

namespace Cluster

/-- A caller of some server is sent to `b`, while the store is `k`. -/
inductive SendsAway (k : Cluster) (b : Option Addr) : Prop
  | asked {v v' : Server} {k' : Cluster} {now : Nat} {q : Request}
      (h : v.serve k now q = (.done (.error (.notLeader b)), v', k'))
  /-- A keep-alive that has waited is refused. -/
  | waited {v v' : Server} {i t : Nat} (h : v.answer? k i = some (t, .error (.notLeader b), v'))

variable {k k' : Cluster} {m n : Node} {a : Addr} {b : Option Addr} {d : Deed}

theorem SendsAway.eq_leaderAddr? (h : k.SendsAway b) : b = k.leaderAddr? := by
  cases h with
  | @asked v v' k' now q h =>
    cases hl : k.leads v.node with
    | false =>
      rw [Server.serve_of_not_leads hl] at h
      cases h
      rfl
    | true =>
      have hs : v.serve k now q = v.lead k now q := by simp [Server.serve, hl]
      rw [hs] at h
      exact absurd (congrArg Prod.fst h) (Server.lead_ne_notLeader hl now q b)
  | @waited v v' i t h =>
    obtain ⟨u, hu, -⟩ := Option.bind_eq_some_iff.1 h
    obtain ⟨-, he, -⟩ := Server.answer?_of_error hu h
    cases he
    rfl

/-! ## What the list says of a server -/

/-- Where a server is: as it was registered last, and as its last join since then has it. -/
structure Notice where
  registered : Option Addr := none
  joined : Option Addr := none

namespace Notice

/-- What is known of `m` after something was done to `k`. A join counts if it is granted. -/
def after (w : Notice) (k : Cluster) (m : Node) : Deed → Notice
  | .register n a => if n = m then ⟨some a, none⟩ else w
  | .join n m' a => if m' = m ∧ k.leads n = true then { w with joined := some a } else w
  | .elect _ | .stepDown | .follow _ | .write _ _ => w

def run (w : Notice) (k : Cluster) (m : Node) : List Deed → Notice
  | [] => w
  | d :: ds => (w.after k m d).run (k.does d).2 m ds

/-- The address that counts, which is the newer one. -/
def last? (w : Notice) : Option Addr := w.registered.map w.joined.getD

end Notice

/-- The list of `k` has the server `m`, if it was registered, at the newer of its addresses. -/
def Tells (k : Cluster) (m : Node) (w : Notice) : Prop :=
  ∀ a, w.last? = some a → k.members[m]? = some a

theorem Tells.of_eq {w : Notice} (h : k.Tells m w) (hm : k'.members = k.members) : k'.Tells m w := by
  intro a ha
  rw [hm]
  exact h a ha

theorem members_register (k : Cluster) (n m : Node) (a : Addr) :
    (k.register n a).members[m]? = if n = m then some a else k.members[m]? := by
  simp [register, Std.ExtTreeMap.getElem?_insert]

theorem Tells.does {w : Notice} (h : k.Tells m w) (d : Deed) :
    (k.does d).2.Tells m (w.after k m d) := by
  cases d with
  | elect | stepDown | follow => exact h.of_eq rfl
  | write n c =>
    obtain ⟨-, he⟩ | ⟨-, he⟩ := does_write_cases k n c
    · rw [he]
      exact h.of_eq rfl
    · rw [he]
      exact h
  | register n a =>
    intro a' ha
    show (k.register n a).members[m]? = some a'
    rw [members_register]
    by_cases hn : n = m
    · rw [if_pos hn]
      simpa [Notice.after, Notice.last?, hn] using ha
    · rw [if_neg hn]
      simp only [Notice.after, if_neg hn] at ha
      exact h a' ha
  | join n m' a =>
    by_cases hl : k.leads n = true
    · intro a' ha
      have hd : k.does (.join n m' a) = (.ok (), k.register m' a) := by
        simp [Cluster.does, join, whenLeading, hl, keep]
      rw [hd, members_register]
      by_cases hm : m' = m
      · -- one that has not been registered stays unknown
        rw [if_pos hm]
        cases hr : w.registered with
        | none => simp [Notice.after, Notice.last?, hm, hl, hr] at ha
        | some r => simpa [Notice.after, Notice.last?, hm, hl, hr] using ha
      · rw [if_neg hm]
        simp only [Notice.after, hm, false_and, if_false] at ha
        exact h a' ha
    · have hd : (k.does (.join n m' a)).2 = k := by
        simp [Cluster.does, join, whenLeading, hl, keep]
      have hw : w.after k m (.join n m' a) = w := if_neg fun hx => hl hx.2
      rw [hd, hw]
      exact h

theorem Tells.run {w : Notice} (h : k.Tells m w) (ds : List Deed) :
    (k.run ds).Tells m (w.run k m ds) := by
  induction ds generalizing k w with
  | nil => exact h
  | cons d ds ih => exact ih (h.does d)

/-- **A redirect goes to the newest entry of the leader.** After any registrations, elections,
step-downs, joins and writes, whoever is sent away while a server leads that was registered is
sent to the address of its last registration, unless it has joined since; then to the address
that its last join has given. -/
theorem redirect_exact (k : Cluster) (ds : List Deed) (hl : (k.run ds).leader = some m)
    (hr : (Notice.run {} k m ds).registered = some a) (h : (k.run ds).SendsAway b) :
    b = some ((Notice.run {} k m ds).joined.getD a) := by
  have ht : k.Tells m {} := by
    intro a' ha
    cases ha
  have he : (k.run ds).leaderAddr? = (k.run ds).members[m]? := by
    unfold leaderAddr?
    rw [hl]
  rw [h.eq_leaderAddr?, he]
  refine ht.run ds _ ?_
  unfold Notice.last?
  rw [hr]
  rfl

/-- A server joins, is moved, and asks to join again of one that does not lead. -/
def relocations : List Deed :=
  [.register "a" "a:1", .register "b" "b:1", .elect "a", .join "a" "b" "b:9",
    .register "b" "b:2", .join "b" "b" "b:8", .elect "b"]

theorem redirect_exact_of_relocations :
    let k := Cluster.empty.run relocations
    k.leader = some "b" ∧ (Notice.run {} .empty "b" relocations).registered = some "b:2" ∧
      k.SendsAway (some "b:2") := by
  intro k
  have hl : k.leader = some "b" := rfl
  have hr : (Notice.run {} .empty "b" relocations).registered = some "b:2" := by decide
  let v : Server := { node := "a", listen := "a:1", lease := .default }
  have hs := Server.serve_of_not_leads (v := v) (k := k) (by decide) 0 (.openLock "x" "L")
  have hb := redirect_exact .empty relocations hl hr (.asked hs)
  refine ⟨hl, hr, ?_⟩
  obtain hb : k.leaderAddr? = some "b:2" := hb
  rw [← hb]
  exact .asked hs

/-- A server is registered where clients reach it, joins with another address, and leads. -/
def joins : List Deed :=
  [.register "a" "a:1", .register "b" "b:1", .elect "a", .join "a" "b" "b:9", .elect "b"]

/-- Callers are not sent to where the leader was registered. -/
theorem not_redirected_of_join :
    let k := Cluster.empty.run joins
    k.leader = some "b" ∧ (Notice.run {} .empty "b" joins).registered = some "b:1" ∧
      k.SendsAway (some "b:9") := by
  intro k
  have ha : k.leaderAddr? = some "b:9" := by decide +kernel
  let v : Server := { node := "a", listen := "a:1", lease := .default }
  have hs := Server.serve_of_not_leads (v := v) (k := k) (by decide) 0 (.openLock "x" "L")
  refine ⟨rfl, by decide, ?_⟩
  rw [← ha]
  exact .asked hs

end Cluster

end LockCell
