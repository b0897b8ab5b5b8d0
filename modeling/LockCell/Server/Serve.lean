import LockCell.Request
import LockCell.Server

/-
  LockCell.Server.Serve — how a server answers requests.

  Only the leader serves: every request to another server is refused with the leader's
  address, before anything is looked at (`serve_of_not_leads`). A lock call goes to the
  client's live session, and each request is granted in its own kind of response
  (`answers_of_lead`).
-/

namespace LockCell

namespace Handled

/-- Changes what a finished call has given. -/
def map {α β : Type} (f : α → β) : Handled α → Handled β
  | done r => done (r.map f)
  | parked i t => parked i t

end Handled

namespace Server

/-- A lock call in the client's live session. -/
def onLive {α : Type} (v : Server) (k : Cluster) (c : Client)
    (f : Session → Locks Cluster → Except Error α × Session × Locks Cluster) :
    Except Error α × Server × Cluster :=
  match v.liveSession c with
  | .error e => (.error e, v, k)
  | .ok (i, _) => v.onSession k i (.error (.sessionNotFound c)) f

/-- A request at the leader. -/
def lead (v : Server) (k : Cluster) (now : Nat) : Request → Handled Response × Server × Cluster
  | .initSession c =>
    match v.create c now with
    | .error e => (.done (.error e), v, k)
    | .ok (_, v) => (.done (.ok (.master v.listen)), v, k)
  | .keepAlive c claimed =>
    match v.keepAlive k c claimed now with
    | (h, v, k) => (h.map .kept, v, k)
  | .openLock c p =>
    match v.onLive k c fun s l => s.openLock v.store l p with
    | (r, v, k) => (.done (r.map fun _ => .done), v, k)
  | .deleteLock c p =>
    match v.onLive k c fun s l => s.delete v.store l p with
    | (r, v, k) => (.done (r.map fun _ => .done), v, k)
  | .acquireLock c p m =>
    match v.onLive k c fun s l => s.acquire v.store l p m with
    | (r, v, k) => (.done (r.map .acquired), v, k)
  | .releaseLock c p =>
    match v.onLive k c fun s l => s.release v.store l p with
    | (r, v, k) => (.done (r.map fun _ => .done), v, k)
  | .join n a =>
    match k.join v.node n a with
    | .error e => (.done (.error e), v, k)
    | .ok k => (.done (.ok .done), v, k)

/-- A request at any server. -/
def serve (v : Server) (k : Cluster) (now : Nat) (q : Request) :
    Handled Response × Server × Cluster :=
  if k.leads v.node then v.lead k now q else (.done (.error k.refusal), v, k)

theorem serve_of_not_leads {v : Server} {k : Cluster} (h : k.leads v.node = false) (now : Nat)
    (q : Request) : v.serve k now q = (.done (.error k.refusal), v, k) := by
  simp [serve, h]

theorem exists_of_map_eq_ok {ε α β : Type} {f : α → β} {x : Except ε α} {b : β}
    (h : x.map f = .ok b) : ∃ a, f a = b := by
  cases x with
  | error e => cases h
  | ok a => cases h; exact ⟨a, rfl⟩

/-- A request that is granted at once is granted in its own kind of response. -/
theorem answers_of_lead {v : Server} {k : Cluster} {now : Nat} {q : Request} {r : Response}
    (h : (v.lead k now q).1 = .done (.ok r)) : q.call.Answers r := by
  cases q with
  | initSession c =>
    simp only [lead] at h
    split at h
    · cases h
    · cases h; trivial
  | keepAlive c claimed =>
    simp only [lead] at h
    revert h
    generalize v.keepAlive k c claimed now = x
    rcases x with ⟨(e | a) | _, _, _⟩ <;> intro h <;> cases h
    trivial
  | openLock c p | deleteLock c p | acquireLock c p m | releaseLock c p =>
    simp only [lead, Handled.done.injEq] at h
    obtain ⟨_, rfl⟩ := exists_of_map_eq_ok h
    trivial
  | join n a =>
    simp only [lead] at h
    split at h
    · cases h
    · cases h; trivial

/-- What the server says of itself. -/
def status (v : Server) (k : Cluster) : Status where
  node := v.node
  listen := v.listen
  leads := k.leads v.node
  leader := k.leaderAddr?
  sessions := v.liveSessions
  locks := v.slots.records.length

end Server

end LockCell
