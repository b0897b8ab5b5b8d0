import LockCell.Client.Search
import LockCell.Proofs.Cell.Retries
import LockCell.Proofs.Client.Resends
import LockCell.Proofs.Wire.Messages

/-
  LockCell.Proofs.Net.Hop — what a server's result is at the client.

  The server writes its result as a reply, an error as a fault, and the client reads the
  text back (`Delivery.outcome_answered`: nothing is lost on the way, so the text may be left out
  of a cell). A success comes over as it is. An error of a class that the client acts on
  comes over as it is, any other as its message (`Error.ComesAs`).

  None of them is a reason to ask again: the lock call that a server has answered is not
  sent any more, nor is a keep-alive that it has refused
  (`Delivery.error_class_survives_hop`). A candidate that refuses to take a session over is
  another matter: it is asked in every round of the search.
-/

namespace LockCell

open Json Text

/-! ## Errors and faults -/

namespace Error

/-- A fault has a form of its own for it. -/
def HasFault : Error → Prop
  | notLeader _ | lock _ | sessionExists _ | sessionNotFound _ | sessionExpired _ => True
  | noServerAvailable | connectionClosed _ | transport .. | storage _ | remote _ | serialization _
  | io _ | other _ => False

/-- At the client the server's error `e` is `e'`. -/
structure ComesAs (e e' : Error) : Prop where
  redirect : e'.redirect? = e.redirect?
  isPrecondition : e'.isPrecondition = e.isPrecondition
  isSessionExpired : e'.isSessionExpired = e.isSessionExpired
  whole : e.HasFault → e' = e ∧ e'.message = e.message
  told : ¬ e.HasFault → e' = .remote e.message
  lasting : e'.isTransient = false
  /-- Only a server that does not lead is passed over by a search. -/
  passable : Search.passable e' = true → ∃ l, e = .notLeader l

theorem comesAs_toError (e : Error) : e.ComesAs (Fault.ofError e).toError := by
  cases e with
  | notLeader l =>
    exact ⟨rfl, rfl, rfl, fun _ => ⟨rfl, rfl⟩, fun h => absurd trivial h, rfl, fun _ => ⟨l, rfl⟩⟩
  | lock | sessionExists | sessionNotFound | sessionExpired =>
    exact ⟨rfl, rfl, rfl, fun _ => ⟨rfl, rfl⟩, fun h => absurd trivial h, rfl, nofun⟩
  | noServerAvailable | connectionClosed | transport | storage | remote | serialization | io
  | other => exact ⟨rfl, rfl, rfl, nofun, fun _ => rfl, rfl, nofun⟩

end Error

/-! ## The text of a reply -/

/-- Its lease can be written. -/
def Response.Fits : Response → Prop
  | .kept k => k.lease / Clock.second < wordBound
  | .master _ | .done | .acquired _ => True

instance (x : Response) : Decidable x.Fits := by
  cases x <;> unfold Response.Fits <;> infer_instance

/-- A handler of the call can have this result. -/
def Call.Gives (c : Call) (r : Except Error Response) : Prop :=
  ∀ x, r = .ok x → c.Answers x ∧ x.Fits

theorem Call.gives_error (c : Call) (e : Error) : c.Gives (.error e) := by
  intro x hx
  cases hx

theorem Wire.survives_response {c : Call} {x : Response} (hc : c.Answers x) (hx : x.Fits) :
    (⟨writeResponse, readResponse c⟩ : Codec Response).Survives 3 x := by
  intro depth hd rest hr
  cases x with
  | master a =>
    cases c with
    | initSession => exact (survives_master a depth (by omega) rest hr).map _
    | _ => exact hc.elim
  | kept k =>
    cases c with
    | keepAlive => exact (survives_kept hx depth (by omega) rest hr).map _
    | _ => exact hc.elim
  | acquired b =>
    cases c with
    | acquireLock => exact (survives_acquired b depth (by omega) rest hr).map _
    | _ => exact hc.elim
  | done =>
    cases c with
    | openLock | deleteLock | releaseLock | join =>
      exact (survives_done depth (by omega) rest hr).map _
    | _ => exact hc.elim

namespace Delivery

/-- The reply of a server whose handler had this result. -/
def answered (c : Call) (r : Except Error Response) : Delivery :=
  .raw 200 (some ((Wire.replyTo c).toText (Cell.toReply r)))

/-- The text of a reply says what the reply says. -/
theorem outcome_answered {c : Call} {r : Except Error Response} (h : c.Gives r) (a : Addr) :
    outcome c a (answered c r) = ofReply (Cell.toReply r) := by
  have hs : (Wire.replyTo c).Survives 4 (Cell.toReply r) := by
    refine Wire.survives_reply (Nat.le_refl 3) _ fun x hx => ?_
    cases r with
    | error e => cases hx
    | ok y =>
      cases hx
      exact Wire.survives_response (h x rfl).1 (h x rfl).2
  simp only [outcome, answered, hs.readAll (by decide)]
  rfl

/-- A success comes over as it is. -/
theorem outcome_answered_ok {c : Call} {x : Response} (h : c.Gives (.ok x)) (a : Addr) :
    outcome c a (answered c (.ok x)) = .ok x :=
  outcome_answered h a

theorem outcome_answered_error (c : Call) (e : Error) (a : Addr) :
    outcome c a (answered c (.error e)) = .error (Fault.ofError e).toError :=
  outcome_answered (c.gives_error e) a

/-- What a server has answered ends the lock call, and a refusal ends the keep-alives. -/
theorem endedBy_outcome {c : Call} {r : Except Error Response} (h : c.Gives r) (a : Addr)
    {ask : Ask} (hp : ask ≠ .probe) (hk : ∀ n, ask = .keepAlive n → ∃ e, r = .error e) :
    ask.EndedBy (outcome c a (answered c r)) := by
  cases ask with
  | probe => exact absurd rfl hp
  | keepAlive n =>
    obtain ⟨e, rfl⟩ := hk n rfl
    rw [outcome_answered_error]
    exact ⟨_, rfl, (Error.comesAs_toError e).lasting⟩
  | lock id =>
    intro e' he
    cases r with
    | ok x =>
      rw [outcome_answered_ok h] at he
      cases he
    | error e =>
      rw [outcome_answered_error] at he
      cases he
      exact (Error.comesAs_toError e).lasting

/-- What the client makes of any result of a handler: a success is the same, an error is of the
same class. And once a server has answered a lock call of a client's session, or refused a
keep-alive, the client asks it no more, until it makes a new call of that number. -/
theorem error_class_survives_hop :
    (∀ (c : Call) (a : Addr),
      (∀ x, c.Answers x → x.Fits → outcome c a (answered c (.ok x)) = .ok x) ∧
        ∀ e, ∃ e', outcome c a (answered c (.error e)) = .error e' ∧ e.ComesAs e') ∧
      ∀ (g : Nat) (cfg : ClientConfig) (b : Addr) (begun now : Nat) (es es' : List Career.Event)
        (x y z : Career) (t : Nat) (ask : Ask) (a : Addr) (q : Request)
        (r : Except Error Response), begun ≤ now → g ∣ now →
        (Career.start cfg b begun now).run? g es = some x →
        q.call.Gives r → ask ≠ .probe → (∀ n, ask = .keepAlive n → ∃ e, r = .error e) →
        x.step? g (.answer (t, ask, a, some q) (outcome q.call a (answered q.call r))) = some y →
        (∀ id op, ask = .lock id → .call id op ∉ es') → y.run? g es' = some z →
        ∃ later, z.sent = y.sent ++ later ∧ ∀ w ∈ later, w.2.1 ≠ ask := by
  refine ⟨fun c a => ⟨fun x hc hx => ?_, fun e => ?_⟩, ?_⟩
  · refine outcome_answered_ok (fun y hy => ?_) a
    cases hy
    exact ⟨hc, hx⟩
  · exact ⟨_, outcome_answered_error c e a, Error.comesAs_toError e⟩
  · intro g cfg b begun now es es' x y z t ask a q r hb hn hx hr hp hk hy hnew hz
    obtain ⟨ho, hl⟩ := Career.lone_run hb hn hx
    have hover := Career.over_of_answer ho hl (endedBy_outcome hr a hp hk) hy
    exact hover.run hz hnew

/-- A server's disk is full, and another lock call is made after that. -/
theorem error_class_survives_hop_of_full_disk : ∃ x y z later,
    (Career.start ⟨"x", ["a:1"], .fast⟩ "a:1" 0 0).run? Clock.milli
        [.goOn, .call 0 (.openLock "p"), .goOn] = some x ∧
      x.step? Clock.milli (.answer (0, .lock 0, "a:1", some (.openLock "x" "p"))
        (outcome .openLock "a:1" (answered .openLock (.error (.storage "disk full"))))) = some y ∧
      y.run? Clock.milli [.call 1 (.openLock "p"), .goOn] = some z ∧
      z.sent = y.sent ++ later ∧ ∀ w ∈ later, w.2.1 ≠ .lock 0 := by
  have ho := outcome_answered_error .openLock (.storage "disk full") "a:1"
  have hrun : ∃ x y z,
      (Career.start ⟨"x", ["a:1"], .fast⟩ "a:1" 0 0).run? Clock.milli
          [.goOn, .call 0 (.openLock "p"), .goOn] = some x ∧
        x.step? Clock.milli (.answer (0, .lock 0, "a:1", some (.openLock "x" "p"))
          (.error (.remote "storage error: disk full"))) = some y ∧
        y.run? Clock.milli [.call 1 (.openLock "p"), .goOn] = some z :=
    ⟨_, _, _, rfl, rfl, rfl⟩
  obtain ⟨x, y, z, hx, hy, hz⟩ := hrun
  have hy' := ho.symm ▸ hy
  have hnew : ∀ id op, Ask.lock 0 = .lock id →
      Career.Event.call id op ∉ [Career.Event.call 1 (.openLock "p"), .goOn] := by
    rintro id op h
    cases h
    simp
  have hlater := error_class_survives_hop.2 Clock.milli ⟨"x", ["a:1"], .fast⟩ "a:1" 0 0
    [.goOn, .call 0 (.openLock "p"), .goOn] [.call 1 (.openLock "p"), .goOn] x y z 0 (.lock 0)
    "a:1" (.openLock "x" "p") (.error (.storage "disk full")) (Nat.le_refl 0) (Nat.dvd_zero _) hx
    (Call.gives_error _ _) nofun nofun hy' hnew hz
  obtain ⟨later, hl, hne⟩ := hlater
  exact ⟨x, y, z, later, hx, hy', hz, hl, hne⟩

end Delivery

end LockCell
