import LockCell.Cell.Run
import LockCell.Proofs.Cell.Programs
import LockCell.Proofs.Server.Bystanders
import LockCell.Proofs.Server.Leases

/-
  LockCell.Proofs.Cell.Retries — a client's list of locks and its server's.

  A link is a client session and the leader that has its session. The client makes one lock
  call after another, and the network may close the connection before a request is served or
  before its reply is read (`Event`); then the call goes out again. Beside that the client
  keeps its session alive, and anybody else may do anything at the server that leaves the
  session live. In a cell it goes the same way (`arrive_eq_step?`).

  An answer that arrives moves both lists in the same way (`LockOp.book`). A request that is
  served without an answer moves the server's list alone, and if it does, its repetition is
  refused, for what it asks has been done (`LockOp.Spent`). The refusal is final, so the lists
  stay apart: they agree as long as no such request has moved the server's list, and from then
  on they do not, until the client makes another call (`agree_until_change_unread`).
-/

namespace LockCell

namespace LockOp

/-- How a call is answered. -/
def response : LockOp → Bool → Response
  | acquireLock _ _, b => .acquired b
  | _, _ => .done

/-- The list after a call. -/
def book (op : LockOp) (d : Dict Mode) : Except Error Bool → Dict Mode
  | .error _ => d
  | .ok b =>
    match op with
    | openLock _ => d
    | acquireLock p m => if b then d.insert p m else d
    | releaseLock p | deleteLock p => d.erase p

/-- What the call asks of the list has been done. -/
def Spent (d : Dict Mode) : LockOp → Prop
  | openLock _ => False
  | acquireLock p _ => p ∈ d
  | releaseLock p | deleteLock p => p ∉ d

@[simp] theorem book_error (op : LockOp) (d : Dict Mode) (e : Error) : op.book d (.error e) = d :=
  rfl

/-- A call that has changed the list is spent. -/
theorem spent_of_book_ne {op : LockOp} {d : Dict Mode} {r : Except Error Bool}
    (h : op.book d r ≠ d) : op.Spent (op.book d r) := by
  cases r with
  | error e => exact absurd rfl h
  | ok b =>
    cases op with
    | openLock p => exact h rfl
    | acquireLock p m =>
      cases b with
      | false => exact absurd rfl h
      | true => exact Dict.mem_insert_iff.2 (.inl rfl)
    | releaseLock p | deleteLock p => exact fun hp => (Dict.mem_erase_iff.1 hp).1 rfl

end LockOp

/-! ## The client's list -/

/-- The lock request that is sent: the number of its call, its address and itself. -/
def Effect.lockRequest? : Effect → Option (Nat × Addr × Request)
  | .send (.lock id) a q => some (id, a, q)
  | _ => none

namespace ClientSession

variable {s : ClientSession} {now : Nat} {x : Step}

theorem Aside.lockRequest?_eq_none (h : s.Aside x) :
    x.2.findSome? Effect.lockRequest? = none := by
  refine List.findSome?_eq_none_iff.2 fun e he => ?_
  have := h.effects e he
  unfold Effect.lockRequest?
  split
  · exact this.elim
  · rfl

/-- What the only pending call does next: it is refused for good, or it stays the only one, and
its request is on its way if it flies. -/
theorem callStep?_cases {c : LockCall} (hc : s.calls = [c]) (hx : s.callStep? now c = some x) :
    x.1.client = s.client ∧ x.1.held = s.held ∧ c.state ≠ .flying ∧
      (x.1.calls = [] ∧ x.2.findSome? Effect.lockRequest? = none ∨
        x.1.calls = [{ c with state := .gate }] ∧ x.2.findSome? Effect.lockRequest? = none ∨
        x.1.calls = [{ c with state := .flying }] ∧
          x.2.findSome? Effect.lockRequest? = some (c.id, s.server, c.op.request s.client)) := by
  cases CallStep.of_callStep? hx with
  | returns hst => exact ⟨rfl, rfl, by simp [hst], .inr (.inl ⟨by simp [setCall, hc], rfl⟩)⟩
  | goes hst => exact ⟨rfl, rfl, by simp [hst], .inr (.inr ⟨by simp [setCall, hc], rfl⟩)⟩
  | fails hst => exact ⟨rfl, rfl, by simp [hst], .inl ⟨by simp [dropCall, hc], rfl⟩⟩

theorem lockAnswer_closed {c : LockCall} (hc : s.calls = [c]) (a : Addr) :
    s.lockAnswer c.id (.error (.connectionClosed a)) now =
      ({ s with calls := [{ c with state := .resting (now + s.config.probe) }] }, []) := by
  simp [lockAnswer, hc, Error.isTransient, setCall]

/-- The fault in a server's reply is not one after which a call is sent again. -/
theorem isTransient_toError (f : Fault) : f.toError.isTransient = false := by
  cases f <;> rfl

theorem record_response (s : ClientSession) (op : LockOp) (b : Bool) :
    s.record op (op.response b) = { s with held := op.book s.held (.ok b) } := by
  cases op with
  | openLock p => rfl
  | acquireLock p m => cases b <;> rfl
  | releaseLock p | deleteLock p => rfl

/-- The server's reply ends the call, and the client books it. -/
theorem exists_lockAnswer_reply {c : LockCall} {id : Nat}
    (hc : s.calls.find? (·.id = id) = some c) (r : Except Error Bool) (now : Nat) :
    ∃ b, s.lockAnswer id (Delivery.ofReply (Cell.toReply (r.map c.op.response))) now =
      ({ s.dropCall id with held := c.op.book s.held r }, [.finish id b]) := by
  cases r with
  | ok b =>
    have hr : Delivery.ofReply (Cell.toReply ((Except.ok b).map c.op.response)) =
        .ok (c.op.response b) := rfl
    refine ⟨.ok (c.op.response b), ?_⟩
    simp only [lockAnswer, hc, hr, record_response]
    rfl
  | error e =>
    have hr : Delivery.ofReply (Cell.toReply ((Except.error e : Except Error Bool).map
        c.op.response)) = .error (Fault.ofError e).toError := rfl
    refine ⟨.error (Fault.ofError e).toError, ?_⟩
    simp only [lockAnswer, hc, hr, isTransient_toError, Bool.false_eq_true, if_false]
    rfl

theorem lockAnswer_reply {c : LockCall} (hc : s.calls = [c]) (r : Except Error Bool) (now : Nat) :
    (s.lockAnswer c.id (Delivery.ofReply (Cell.toReply (r.map c.op.response))) now).1 =
        { s with calls := [], held := c.op.book s.held r } ∧
      ∀ e ∈ (s.lockAnswer c.id (Delivery.ofReply (Cell.toReply (r.map c.op.response))) now).2,
        e.lockRequest? = none := by
  have hfind : s.calls.find? (·.id = c.id) = some c := by simp [hc]
  obtain ⟨b, hb⟩ := exists_lockAnswer_reply hfind r now
  rw [hb]
  refine ⟨by simp [dropCall, hc], fun e he => ?_⟩
  rw [List.mem_singleton.1 he]
  rfl

end ClientSession

/-! ## The server's list -/

theorem Session.held_call {σ : Type} (S : Store σ) (s : Session) (l : Locks σ) (op : LockOp) :
    (s.call S l op).2.1.held = op.book s.held (s.call S l op).1 := by
  cases hs : s.ended with
  | true => cases op <;> simp [call, openLock, acquire, release, delete, whenLive, hs, Except.map]
  | false =>
    cases op with
    | openLock p =>
      simp only [call, openLock, whenLive, hs]
      rcases l.openLock S p with ⟨_ | _, l'⟩ <;> rfl
    | acquireLock p m =>
      simp only [call, acquire, whenLive, hs, Bool.false_eq_true, if_false]
      split
      · rfl
      · rcases l.acquire S s.client p m with ⟨_ | _ | _, l'⟩ <;> rfl
    | releaseLock p =>
      simp only [call, release, whenLive, hs, Bool.false_eq_true, if_false]
      split
      · rcases l.release S s.client p with ⟨_ | _, l'⟩ <;> rfl
      · rfl
    | deleteLock p =>
      simp only [call, delete, whenLive, hs, Bool.false_eq_true, if_false]
      rcases l.delete S s.client p with ⟨_ | _, l'⟩ <;> rfl

namespace Server

variable {v : Server} {k : Cluster} {c : Client} {i now : Nat} {s : Session} {op : LockOp}

/-- The list of the client's live session. -/
def listed? (v : Server) (c : Client) : Option (Dict Mode) :=
  (v.liveSession c).toOption.map fun x => x.2.held

theorem listed?_eq_some_iff {d : Dict Mode} : v.listed? c = some d ↔
    ∃ i s, v.session? c = some (i, s) ∧ s.ended = false ∧ s.held = d := by
  unfold listed?
  cases h : v.liveSession c with
  | error e =>
    refine ⟨nofun, fun hx => ?_⟩
    obtain ⟨i, s, hs, he, -⟩ := hx
    rw [liveSession_eq_ok_iff.2 ⟨hs, he⟩] at h
    cases h
  | ok x =>
    obtain ⟨i, s⟩ := x
    obtain ⟨hs, he⟩ := liveSession_eq_ok_iff.1 h
    constructor
    · intro hd
      exact ⟨i, s, hs, he, Option.some.inj hd⟩
    · rintro ⟨j, t, ht, -, rfl⟩
      rw [hs] at ht
      cases ht
      rfl

/-- A lock call of a client with a live session is a call of that session. -/
theorem serve_request (hl : k.leads v.node = true) (hs : v.session? c = some (i, s))
    (he : s.ended = false) (op : LockOp) (now : Nat) :
    v.serve k now (op.request c) =
      (.done ((s.call v.store (v.locks k) op).1.map op.response),
        v.after i (s.call v.store (v.locks k) op).2.1 (s.call v.store (v.locks k) op).2.2) := by
  have hi := (session?_eq_some_iff.1 hs).2
  unfold serve
  rw [if_pos hl]
  cases op with
  | openLock p | deleteLock p | releaseLock p =>
    simp only [LockOp.request, lead, onLive_of_live hs he, onSession_of_some hi, Session.call,
      Server.after]
    refine Prod.ext ?_ rfl
    generalize (Prod.fst _ : Except Error Unit) = r
    cases r <;> rfl
  | acquireLock p m =>
    simp only [LockOp.request, lead, onLive_of_live hs he, onSession_of_some hi, Session.call,
      Server.after]
    rfl

theorem session?_serve_request (hl : k.leads v.node = true) (hs : v.session? c = some (i, s))
    (he : s.ended = false) (op : LockOp) (now : Nat) :
    (v.serve k now (op.request c)).2.1.session? c =
      some (i, (s.call v.store (v.locks k) op).2.1) := by
  obtain ⟨hr, hi⟩ := session?_eq_some_iff.1 hs
  rw [serve_request hl hs he]
  exact session?_eq_some_iff.2 ⟨hr, (sessions_after hi _ _ i).trans (if_pos rfl)⟩

/-- A call that is spent is refused. -/
theorem Leads.refuses_spent (h : v.Leads k) (hs : v.session? c = some (i, s))
    (he : s.ended = false) (hop : op.Spent s.held) :
    ∃ e, (s.call v.store (v.locks k) op).1 = .error e := by
  cases op with
  | openLock p => exact hop.elim
  | acquireLock p m =>
    refine ⟨.lock (.alreadyOwned s.client p), ?_⟩
    have hp : p ∈ s.held := hop
    simp [Session.call, Session.acquire, Session.whenLive, he, hp]
  | releaseLock p =>
    refine ⟨.lock (.notOwned s.client p), ?_⟩
    have hp : p ∉ s.held := hop
    simp [Session.call, Session.release, Session.whenLive, he, hp, Except.map]
  | deleteLock p =>
    -- the table has no hold of the client that is not on its list
    have hn : ¬ (v.slots.Holds s.client p .exclusive ∧ p ∈ k.contents ∧ k.leads v.node = true) := by
      rintro ⟨hh, -⟩
      obtain ⟨j, t, ht, hp⟩ := h.covered _ _ _ hh
      rw [h.client_of_session? hs, hs] at ht
      cases ht
      exact hop (Dict.mem_of_getElem? hp)
    obtain ⟨e, hd⟩ := Locks.delete_of_not v.node (l := v.locks k) hn
    have hd : (v.locks k).delete v.store s.client p = (.error e, _) := hd
    refine ⟨e, ?_⟩
    simp [Session.call, Session.delete, Session.whenLive, he, hd, Except.map]

end Server

/-! ## The link -/

/-- A client session, and the leader that has its session. -/
structure Link where
  now : Nat
  client : ClientSession
  /-- The lock request that is on its way: the number of its call, its address and itself. -/
  out : Option (Nat × Addr × Request) := none
  server : Server
  store : Cluster

namespace Link

inductive Event where
  /-- The client makes a lock call; it has none pending. -/
  | call (id : Nat) (op : LockOp)
  /-- The client does what it does next. -/
  | goOn
  /-- The connection is closed before the request is served. -/
  | unserved
  /-- The request is served, and the connection is closed before the reply is read. -/
  | unread
  /-- The request is served, and its reply is read. -/
  | answered
  /-- The client is answered something else than a lock call. -/
  | heard (ask : Ask) (r : Except Error Response)
  /-- Something else is done at the server. -/
  | other (a : Server.Act)
  /-- The clock goes on by so much. -/
  | pass (span : Nat)

/-- The list of the client's live session. -/
def listed? (x : Link) : Option (Dict Mode) := x.server.listed? x.client.client

/-- Something is done at the server. -/
def does (x : Link) (a : Server.Act) : Link :=
  { x with
    server := (x.server.does x.store x.now a).1
    store := (x.server.does x.store x.now a).2 }

/-- The client has made a step. -/
def move (x : Link) (s : ClientSession.Step) : Link :=
  { x with client := s.1, out := (s.2.findSome? Effect.lockRequest?).or x.out }

/-- The request that was on its way has come to its end. -/
def deliver (x : Link) (id : Nat) (a : Addr) (q : Request) (d : Delivery) : Link :=
  { x with out := none }.move (x.client.answer (.lock id) (d.outcome q.call a) x.now)

/-- It is no lock call of the client. -/
def foreign (x : Link) (a : Server.Act) : Bool :=
  match x.server.session? x.client.client with
  | some (i, _) => a.foreign x.client.client i
  | none => false

def step? (x : Link) : Event → Option Link
  | .call id op => if x.client.calls = [] then some (x.move (x.client.call id op)) else none
  | .goOn => (x.client.step? x.now).map x.move
  | .unserved => x.out.map fun (id, a, q) => x.deliver id a q .closed
  | .unread => x.out.map fun (id, a, q) => (x.does (.request q)).deliver id a q .closed
  | .answered => x.out.bind fun (id, a, q) =>
    match (x.server.serve x.store x.now q).1 with
    | .done r => some ((x.does (.request q)).deliver id a q (.reply (Cell.toReply r)))
    | .parked .. => none
  | .heard (.lock _) _ => none
  | .heard ask r => some (x.move (x.client.answer ask r x.now))
  | .other a => if x.foreign a then some (x.does a) else none
  | .pass t => some { x with now := x.now + t }

/-- What comes of an event, or `none` if it is out of turn or the session is not live after
it. -/
def next? (x : Link) (e : Event) : Option Link := (x.step? e).filter (·.listed?.isSome)

def run? (x : Link) (es : List Event) : Option Link := es.foldlM next? x

/-- A client session begins when its server has made one for it. -/
def start? (config : ClientConfig) (addr : Addr) (begun now : Nat) (v : Server × Cluster) :
    Option Link :=
  match v.1.serve v.2 now (.initSession config.client) with
  | (.done (.ok _), v, k) =>
    some { now, client := .begin config addr begun now, server := v, store := k }
  | _ => none

/-- The client has a lock on its list if and only if its server's session has it, in the same
mode. -/
def Agree (x : Link) : Prop :=
  ∃ i s, x.server.session? x.client.client = some (i, s) ∧ s.ended = false ∧
    ∀ (p : Path) (m : Mode), x.client.held[p]? = some m ↔ s.held[p]? = some m

/-- No request that is served without an answer changes the server's list. -/
def untouched : Link → List Event → Bool
  | _, [] => true
  | x, e :: es =>
    match x.next? e with
    | none => true
    | some y =>
      (match e with
        | .unread => decide (y.listed? = x.listed?)
        | _ => true) && untouched y es

variable {x y z : Link} {e : Event} {es : List Event}

theorem agree_iff : x.Agree ↔ x.listed? = some x.client.held := by
  unfold Agree listed?
  rw [Server.listed?_eq_some_iff]
  refine exists_congr fun i => exists_congr fun s => and_congr_right fun _ =>
    and_congr_right fun _ => ⟨fun h => ?_, fun h p m => by rw [h]⟩
  exact Std.ExtTreeMap.ext_getElem? fun p => Option.ext fun m => (h p m).symm

/-- The client has a pending call with that operation. -/
def Asks (x : Link) (op : LockOp) : Prop := ∃ c ∈ x.client.calls, c.op = op

/-- What the server would say now. -/
def verdict (x : Link) (op : LockOp) : Except Error Bool :=
  match x.server.liveSession x.client.client with
  | .error e => .error e
  | .ok (_, s) => (s.call x.server.store (x.server.locks x.store) op).1

/-- All that an event can do to the lists. -/
inductive Step (x : Link) : Event → Link → Prop
  | still {e : Event} {y : Link} : y.listed? = x.listed? → y.client.held = x.client.held →
      (∀ op, y.Asks op → x.Asks op ∨ ∃ id, e = .call id op) → Step x e y
  | unread {op : LockOp} {d : Dict Mode} {y : Link} : x.listed? = some d →
      y.listed? = some (op.book d (x.verdict op)) → y.client.held = x.client.held →
      x.Asks op → (∀ op', y.Asks op' → op' = op) → Step x .unread y
  | answered {op : LockOp} {d : Dict Mode} {y : Link} : x.listed? = some d →
      y.listed? = some (op.book d (x.verdict op)) →
      y.client.held = op.book x.client.held (x.verdict op) →
      x.Asks op → (∀ op', ¬ y.Asks op') → Step x .answered y

/-- The session is live at the leader, and the request on its way is that of the only call. -/
structure Tied (x : Link) : Prop where
  leads : x.server.Leads x.store
  live : x.listed?.isSome
  calls : x.client.calls = [] ∧ x.out = none ∨
    ∃ c, x.client.calls = [c] ∧ (c.state ≠ .flying ∧ x.out = none ∨
      c.state = .flying ∧ ∃ a, x.out = some (c.id, a, c.op.request x.client.client))

/-! ### The request and its end -/

variable {c : LockCall}

theorem deliver_closed (hc : x.client.calls = [c]) (a : Addr) (q : Request) :
    ∃ t, x.deliver c.id a q .closed = { x with
      out := none
      client := { x.client with calls := [{ c with state := .resting t }] } } :=
  ⟨x.now + x.client.config.probe, by
    simp only [deliver, move, ClientSession.answer, Delivery.outcome,
      ClientSession.lockAnswer_closed hc]
    rfl⟩

theorem deliver_reply (hc : x.client.calls = [c]) (a : Addr) (q : Request)
    (r : Except Error Bool) :
    x.deliver c.id a q (.reply (Cell.toReply (r.map c.op.response))) = { x with
      out := none
      client := { x.client with calls := [], held := c.op.book x.client.held r } } := by
  obtain ⟨hs, he⟩ := ClientSession.lockAnswer_reply hc r x.now
  have hn := List.findSome?_eq_none_iff.2 he
  simp only [deliver, move, ClientSession.answer, Delivery.outcome, hs, hn]
  rfl

/-- The client's lock call is served: the server's list is moved as its answer says. -/
theorem Tied.serve (h : x.Tied) (op : LockOp) :
    ∃ d, x.listed? = some d ∧
      (x.server.serve x.store x.now (op.request x.client.client)).1 =
        .done ((x.verdict op).map op.response) ∧
      (x.does (.request (op.request x.client.client))).listed? =
        some (op.book d (x.verdict op)) := by
  obtain ⟨d, hd⟩ := Option.isSome_iff_exists.1 h.live
  obtain ⟨i, s, hs, he, rfl⟩ := Server.listed?_eq_some_iff.1 hd
  have hv : x.verdict op = (s.call x.server.store (x.server.locks x.store) op).1 := by
    simp only [verdict, Server.liveSession_eq_ok_iff.2 ⟨hs, he⟩]
  refine ⟨s.held, hd, ?_, Server.listed?_eq_some_iff.2 ⟨i, _,
    Server.session?_serve_request h.leads.leads hs he op x.now, ?_, ?_⟩⟩
  · rw [Server.serve_request h.leads.leads hs he, hv]
  · rw [Session.call_eq_held]
    exact he
  · rw [hv, Session.held_call]

/-- A call that is spent is refused. -/
theorem Tied.verdict_of_spent (h : x.Tied) {d : Dict Mode} (hd : x.listed? = some d) {op : LockOp}
    (hop : op.Spent d) : ∃ e, x.verdict op = .error e := by
  obtain ⟨i, s, hs, he, rfl⟩ := Server.listed?_eq_some_iff.1 hd
  obtain ⟨e, hr⟩ := h.leads.refuses_spent hs he hop
  exact ⟨e, by simp only [verdict, Server.liveSession_eq_ok_iff.2 ⟨hs, he⟩, hr]⟩

theorem listed?_other {a : Server.Act} (h : x.Tied) (ha : x.foreign a = true)
    (hl : (x.does a).listed?.isSome) : (x.does a).listed? = x.listed? := by
  obtain ⟨d, hd⟩ := Option.isSome_iff_exists.1 h.live
  obtain ⟨i, s, hs, he, rfl⟩ := Server.listed?_eq_some_iff.1 hd
  simp only [foreign, hs] at ha
  obtain ⟨s', hs', hh⟩ : ∃ s', (x.does a).server.session? x.client.client = some (i, s') ∧
      (s'.ended = false → s'.held = s.held) := Server.session?_does h.leads.toKept hs he ha
  obtain ⟨d', hd'⟩ := Option.isSome_iff_exists.1 hl
  obtain ⟨j, t, ht, he', rfl⟩ := Server.listed?_eq_some_iff.1 hd'
  have ht : (x.does a).server.session? x.client.client = some (j, t) := ht
  rw [hs'] at ht
  cases ht
  rw [hd', hd, hh he']

/-! ### One event -/

/-- A step that leaves the client's list and its calls alone and sends no lock request. -/
theorem Tied.still (h : x.Tied) {s : ClientSession.Step} (hcl : s.1.client = x.client.client)
    (hh : s.1.held = x.client.held) (hc : s.1.calls = x.client.calls)
    (hn : s.2.findSome? Effect.lockRequest? = none) (e : Event) :
    (x.move s).Tied ∧ Step x e (x.move s) := by
  have hl : (x.move s).listed? = x.listed? := by
    simp only [listed?, move, hcl]
  refine ⟨⟨h.leads, hl ▸ h.live, ?_⟩, .still hl hh fun op ho => .inl ?_⟩
  · simp only [move, hc, hcl, hn, Option.none_or]
    exact h.calls
  · simpa only [Asks, move, hc] using ho

theorem Tied.aside (h : x.Tied) {s : ClientSession.Step} (hs : x.client.Aside s) (e : Event) :
    (x.move s).Tied ∧ Step x e (x.move s) :=
  h.still hs.client hs.held hs.calls hs.lockRequest?_eq_none e

theorem Tied.call (h : x.Tied) (hc : x.client.calls = []) (id : Nat) (op : LockOp) :
    (x.move (x.client.call id op)).Tied ∧ Step x (.call id op) (x.move (x.client.call id op)) := by
  unfold ClientSession.call
  have ho : x.out = none := by
    obtain ⟨-, ho⟩ | ⟨c, hc', -⟩ := h.calls
    · exact ho
    · simp [hc] at hc'
  split
  · exact h.still rfl rfl rfl rfl _
  · refine ⟨⟨h.leads, h.live, .inr ⟨⟨id, op, .gate⟩, ?_, .inl ⟨nofun, ho⟩⟩⟩, .still rfl rfl ?_⟩
    · simp [move, hc]
    · intro op' ho'
      obtain ⟨c, hm, rfl⟩ := ho'
      simp only [move, hc, List.nil_append, List.mem_singleton] at hm
      exact .inr ⟨id, by rw [hm]⟩

theorem Tied.goOn (h : x.Tied) {s : ClientSession.Step} (hs : x.client.step? x.now = some s) :
    (x.move s).Tied ∧ Step x .goOn (x.move s) := by
  rcases ClientSession.step?_cases hs with hs | ⟨-, c, hm, hs⟩
  · exact h.aside (ClientSession.aside_watchStep? hs) _
  · obtain ⟨hc, -⟩ | ⟨c', hc, hfly⟩ := h.calls
    · simp [hc] at hm
    · obtain rfl : c = c' := by simpa [hc] using hm
      obtain ⟨hcl, hh, hst, hx⟩ := ClientSession.callStep?_cases hc hs
      have ho : x.out = none := (hfly.resolve_right fun hf => hst hf.1).2
      have hl : (x.move s).listed? = x.listed? := by
        simp only [listed?, move, hcl]
      have hasks : ∀ op, (x.move s).Asks op → x.Asks op := by
        intro op hop
        obtain ⟨d, hd, rfl⟩ := hop
        refine ⟨c, hm, ?_⟩
        obtain ⟨hx, -⟩ | ⟨hx, -⟩ | ⟨hx, -⟩ := hx <;> simp only [move, hx] at hd
        · cases hd
        · rw [List.mem_singleton.1 hd]
        · rw [List.mem_singleton.1 hd]
      refine ⟨⟨h.leads, hl ▸ h.live, ?_⟩, .still hl hh fun op hop => .inl (hasks op hop)⟩
      obtain ⟨hx, hn⟩ | ⟨hx, hn⟩ | ⟨hx, hn⟩ := hx
      · exact .inl ⟨hx, by simp [move, hn, ho]⟩
      · exact .inr ⟨_, hx, .inl ⟨nofun, by simp [move, hn, ho]⟩⟩
      · exact .inr ⟨_, hx, .inr ⟨rfl, x.client.server, by simp [move, hn, hcl]⟩⟩

/-- The call whose request is on its way. -/
theorem Tied.of_out (h : x.Tied) {id : Nat} {a : Addr} {q : Request}
    (ho : x.out = some (id, a, q)) :
    ∃ c, x.client.calls = [c] ∧ c.id = id ∧ c.op.request x.client.client = q := by
  obtain ⟨-, hn⟩ | ⟨c, hc, ⟨-, hn⟩ | ⟨-, b, hb⟩⟩ := h.calls
  · simp [hn] at ho
  · simp [hn] at ho
  · rw [hb] at ho
    cases ho
    exact ⟨c, hc, rfl, rfl⟩

theorem Tied.step (h : x.Tied) (hs : x.next? e = some y) : y.Tied ∧ Step x e y := by
  obtain ⟨hs, hl⟩ := Option.filter_eq_some_iff.1 hs
  cases e with
  | call id op =>
    obtain ⟨hc, hs⟩ := Option.ite_none_right_eq_some.1 hs
    cases hs
    exact h.call hc id op
  | goOn =>
    obtain ⟨s, hm, rfl⟩ := Option.map_eq_some_iff.1 hs
    exact h.goOn hm
  | unserved =>
    obtain ⟨⟨id, a, q⟩, ho, rfl⟩ := Option.map_eq_some_iff.1 hs
    obtain ⟨c, hc, rfl, rfl⟩ := h.of_out ho
    obtain ⟨t, ht⟩ := deliver_closed hc a (c.op.request x.client.client)
    simp only [ht]
    refine ⟨⟨h.leads, h.live, .inr ⟨_, rfl, .inl ⟨nofun, rfl⟩⟩⟩, .still rfl rfl fun op hop => ?_⟩
    obtain ⟨d, hd, rfl⟩ := hop
    exact .inl ⟨c, by simp [hc], by rw [List.mem_singleton.1 hd]⟩
  | unread =>
    obtain ⟨⟨id, a, q⟩, ho, rfl⟩ := Option.map_eq_some_iff.1 hs
    obtain ⟨c, hc, rfl, rfl⟩ := h.of_out ho
    obtain ⟨d, hd, -, hv⟩ := h.serve c.op
    obtain ⟨t, ht⟩ := deliver_closed (x := x.does (.request (c.op.request x.client.client))) hc a
      (c.op.request x.client.client)
    simp only [ht]
    refine ⟨⟨h.leads.does x.now _, ?_, .inr ⟨_, rfl, .inl ⟨nofun, rfl⟩⟩⟩,
      .unread hd hv rfl ⟨c, by simp [hc], rfl⟩ fun op hop => ?_⟩
    · exact Option.isSome_iff_exists.2 ⟨_, hv⟩
    · obtain ⟨d, hd, rfl⟩ := hop
      rw [List.mem_singleton.1 hd]
  | answered =>
    obtain ⟨⟨id, a, q⟩, ho, hs⟩ := Option.bind_eq_some_iff.1 hs
    obtain ⟨c, hc, rfl, rfl⟩ := h.of_out ho
    obtain ⟨d, hd, hr, hv⟩ := h.serve c.op
    simp only [hr] at hs
    cases hs
    have ht := deliver_reply (x := x.does (.request (c.op.request x.client.client))) hc a
      (c.op.request x.client.client) (x.verdict c.op)
    rw [ht]
    refine ⟨⟨h.leads.does x.now _, ?_, .inl ⟨rfl, rfl⟩⟩,
      .answered hd hv rfl ⟨c, by simp [hc], rfl⟩ fun op hop => ?_⟩
    · exact Option.isSome_iff_exists.2 ⟨_, hv⟩
    · obtain ⟨d, hd, -⟩ := hop
      cases hd
  | heard ask r =>
    cases ask with
    | lock id => cases hs
    | keepAlive g | probe =>
      cases hs
      exact h.aside (ClientSession.aside_answer (by simp) r) _
  | other a =>
    obtain ⟨ha, hs⟩ := Option.ite_none_right_eq_some.1 hs
    cases hs
    exact ⟨⟨h.leads.does x.now a, hl, h.calls⟩,
      .still (listed?_other h ha hl) rfl fun op hop => .inl hop⟩
  | pass t =>
    cases hs
    exact ⟨⟨h.leads, h.live, h.calls⟩, .still rfl rfl fun op hop => .inl hop⟩

/-! ### In a cell -/

theorem exists_serve_request (v : Server) (k : Cluster) (now : Nat) (c : Client) (op : LockOp) :
    ∃ r, (v.serve k now (op.request c)).1 = .done r := by
  unfold Server.serve
  split
  · cases op <;> exact ⟨_, rfl⟩
  · exact ⟨_, rfl⟩

/-- The request `f` of the client session `i`, for the lock call `id`, that nobody holds a ticket
for. -/
structure Carries (c : Cell) (f : Flight) (i : Nat) (s : ClientSession) (id : Nat) (op : LockOp) :
    Prop where
  client : c.clients[i]? = some s
  caller : f.caller = .session i (.lock id)
  request : f.request = some (op.request s.client)
  waiters : ∀ w ∈ c.waiters, w.holder ≠ .flight f.id

variable {cell : Cell} {f : Flight} {i id : Nat} {s : ClientSession} {op : LockOp} {host : Host}
  {v : Server}

theorem Carries.deliver (h : Carries cell f i s id op) (d : Delivery) :
    (cell.deliver f d).clients[i]? =
        some (s.answer (.lock id) (d.outcome (op.request s.client).call f.addr) cell.now).1 ∧
      (cell.deliver f d).servers = cell.servers ∧ (cell.deliver f d).cluster = cell.cluster := by
  have hdrop : cell.dropFlight f.id =
      { cell with flights := cell.flights.filter (·.id ≠ f.id) } := by
    have hn : cell.waiters.find? (·.holder = .flight f.id) = none :=
      List.find?_eq_none.2 fun w hw => by simpa using h.waiters w hw
    simp only [Cell.dropFlight, Cell.dropWaiter, hn]
  have hd : cell.deliver f d =
      Cell.setClient { cell with flights := cell.flights.filter (·.id ≠ f.id) } i
        (s.answer (.lock id) (d.outcome (op.request s.client).call f.addr) cell.now) := by
    unfold Cell.deliver
    simp only [hdrop, h.request, h.caller, h.client]
  rw [hd]
  exact ⟨(Cell.clients_setClient h.client _ i).trans (if_pos rfl), rfl, rfl⟩

theorem Carries.reach (h : Carries cell f i s id op) (hh : cell.hosts[f.addr]? = some host)
    (hup : host.up = true) (hv : cell.servers[host.server]? = some v) {r : Except Error Response}
    (hr : (v.serve cell.cluster cell.now (op.request s.client)).1 = .done r) :
    (cell.reach f).clients[i]? =
        some (s.answer (.lock id) ((f.deliver (.reply (Cell.toReply r))).outcome
          (op.request s.client).call f.addr) cell.now).1 ∧
      (cell.reach f).servers[host.server]? =
        some (v.serve cell.cluster cell.now (op.request s.client)).2.1 ∧
      (cell.reach f).cluster = (v.serve cell.cluster cell.now (op.request s.client)).2.2 := by
  have hlt := (Array.getElem?_eq_some_iff.1 hv).1
  revert hr
  cases hs : v.serve cell.cluster cell.now (op.request s.client) with
  | mk x vk =>
    obtain ⟨v', k'⟩ := vk
    rintro rfl
    have hset : Carries (cell.setServer host.server v' k') f i s id op :=
      ⟨h.client, h.caller, h.request, h.waiters⟩
    obtain ⟨hc, hsv, hk⟩ := hset.deliver (f.deliver (.reply (Cell.toReply r)))
    have he : cell.reach f =
        (cell.setServer host.server v' k').deliver f (f.deliver (.reply (Cell.toReply r))) := by
      unfold Cell.reach
      simp [hh, hup, hv, h.request, hs]
    rw [he]
    refine ⟨hc, ?_, hk⟩
    rw [hsv]
    simp [Cell.setServer, hlt]

/-- What the network does to a lock request in a cell is an event of its link; what befalls it on
its arrival decides which. -/
theorem arrive_eq_step? (h : Carries cell f i s id op) (hb : f.back = .intact)
    (hh : cell.hosts[f.addr]? = some host) (hup : host.up = true)
    (hv : cell.servers[host.server]? = some v)
    (he : Trap.spring f.addr f.route cell.traps = none ∧ e = .answered ∨
      (∃ l, Trap.spring f.addr f.route cell.traps = some (.drop, l)) ∧ e = .unserved ∨
      (∃ l, Trap.spring f.addr f.route cell.traps = some (.dropAfter, l)) ∧ e = .unread) :
    ∃ y, Link.step? ⟨cell.now, s, some (id, f.addr, op.request s.client), v, cell.cluster⟩ e =
        some y ∧
      (cell.arrive f).clients[i]? = some y.client ∧
      (cell.arrive f).servers[host.server]? = some y.server ∧
      (cell.arrive f).cluster = y.store := by
  obtain ⟨r, hr⟩ := exists_serve_request v cell.cluster cell.now s.client op
  unfold Cell.arrive
  obtain ⟨ht, rfl⟩ | ⟨⟨l, ht⟩, rfl⟩ | ⟨⟨l, ht⟩, rfl⟩ := he
  · refine ⟨_, by simp only [step?, Option.bind_some, hr]; rfl, ?_⟩
    simp only [ht]
    have hx := h.reach hh hup hv hr
    simp only [Flight.deliver, hb] at hx
    exact hx
  · refine ⟨_, rfl, ?_⟩
    simp only [ht]
    have ht : Carries { cell with traps := l } f i s id op :=
      ⟨h.client, h.caller, h.request, h.waiters⟩
    obtain ⟨hc, hs, hk⟩ := ht.deliver .closed
    exact ⟨hc, by rw [hs]; exact hv, hk⟩
  · refine ⟨_, rfl, ?_⟩
    simp only [ht]
    have ht : Carries { cell with traps := l } { f with back := .lost } i s id op :=
      ⟨h.client, h.caller, h.request, h.waiters⟩
    exact ht.reach hh hup hv hr

/-! ### Runs -/

theorem run?_cons : x.run? (e :: es) = some z ↔ ∃ y, x.next? e = some y ∧ y.run? es = some z :=
  Option.bind_eq_some_iff

theorem Tied.run (h : x.Tied) (hr : x.run? es = some z) : z.Tied := by
  induction es generalizing x with
  | nil =>
    cases hr
    exact h
  | cons e es ih =>
    obtain ⟨y, hy, hr⟩ := run?_cons.1 hr
    exact ih (h.step hy).1 hr

/-- The lists agree as long as no request served without an answer moves the server's. -/
theorem Tied.agree_of_untouched (h : x.Tied) (ha : x.listed? = some x.client.held)
    (hu : untouched x es = true) (hr : x.run? es = some z) : z.listed? = some z.client.held := by
  induction es generalizing x with
  | nil =>
    cases hr
    exact ha
  | cons e es ih =>
    obtain ⟨y, hy, hr⟩ := run?_cons.1 hr
    obtain ⟨hty, hs⟩ := h.step hy
    simp only [untouched, hy, Bool.and_eq_true] at hu
    refine ih hty ?_ hu.2 hr
    cases hs with
    | still hl hh => rw [hl, hh, ha]
    | unread hd hl hh =>
      have hl : y.listed? = x.listed? := by simpa using hu.1
      rw [hl, hh, ha]
    | answered hd hl hh =>
      rw [ha] at hd
      cases hd
      rw [hl, hh]

/-- The client has the list `d`, the server's session has `d'`, and what the client asks has
been done. -/
structure Astray (d d' : Dict Mode) (x : Link) : Prop where
  client : x.client.held = d
  server : x.listed? = some d'
  spent : ∀ op, x.Asks op → op.Spent d'

/-- Lists that are apart stay as they are until the client makes another call. -/
theorem Tied.astray (h : x.Tied) {d d' : Dict Mode} (ha : x.Astray d d')
    (hc : ∀ id op, .call id op ∉ es) (hr : x.run? es = some z) : z.Astray d d' := by
  induction es generalizing x with
  | nil =>
    cases hr
    exact ha
  | cons e es ih =>
    obtain ⟨y, hy, hr⟩ := run?_cons.1 hr
    obtain ⟨hty, hs⟩ := h.step hy
    refine ih hty ?_ (fun id op hm => hc id op (List.mem_cons_of_mem e hm)) hr
    cases hs with
    | still hl hh hop =>
      refine ⟨hh.trans ha.client, hl.trans ha.server, fun op ho => ?_⟩
      obtain ho | ⟨id, rfl⟩ := hop op ho
      · exact ha.spent op ho
      · exact absurd List.mem_cons_self (hc id op)
    | @unread op d₁ y hd hl hh ho hop =>
      -- what was asked again is refused
      rw [ha.server] at hd
      cases hd
      obtain ⟨err, hv⟩ := h.verdict_of_spent ha.server (ha.spent op ho)
      rw [hv] at hl
      exact ⟨hh.trans ha.client, hl, fun op' ho' => hop op' ho' ▸ ha.spent op ho⟩
    | @answered op d₁ y hd hl hh ho hop =>
      rw [ha.server] at hd
      cases hd
      obtain ⟨err, hv⟩ := h.verdict_of_spent ha.server (ha.spent op ho)
      rw [hv] at hl hh
      exact ⟨hh.trans ha.client, hl, fun op' ho' => absurd ho' (hop op')⟩

/-- A request that is served without an answer and moves the server's list parts the lists. -/
theorem Step.astray (h : Step x .unread y) (hn : y.listed? ≠ x.listed?) :
    ∃ d', y.Astray x.client.held d' ∧ y.listed? = some d' := by
  cases h with
  | still hl => exact absurd hl hn
  | unread hd hl hh ho hop =>
    rw [hl, hd] at hn
    refine ⟨_, ⟨hh, hl, fun op' ho' => ?_⟩, hl⟩
    rw [hop op' ho']
    exact LockOp.spent_of_book_ne fun e => hn (congrArg some e)

/-- At the start both lists are empty. -/
theorem tied_start? {v : Server × Cluster} (h : v.1.Leads v.2) {config : ClientConfig} {addr : Addr}
    {begun now : Nat} (hs : start? config addr begun now v = some x) :
    x.Tied ∧ x.listed? = some x.client.held := by
  have hlead := h.does now (.request (.initSession config.client))
  simp only [Server.does] at hlead
  unfold start? at hs
  rw [Server.serve_initSession_of_leads h.leads] at hs hlead
  split at hs
  · rename_i v' k' he
    split at he
    · cases he
    · rename_i i w hw
      rw [hw] at hlead
      cases he
      cases hs
      obtain ⟨-, rfl⟩ := Server.eq_push_of_create hw
      have hl : (v.1.push config.client now).listed? config.client = some ∅ := by
        refine Server.listed?_eq_some_iff.2
          ⟨v.1.sessions.size, .begin config.client v.1.lease now, ?_, rfl, rfl⟩
        refine Server.session?_eq_some_iff.2 ⟨?_, ?_⟩
        · rw [Server.registry_push, if_pos rfl]
        · rw [Server.sessions_push, if_pos rfl]
      exact ⟨⟨hlead, Option.isSome_iff_exists.2 ⟨_, hl⟩, .inl ⟨rfl, rfl⟩⟩, hl⟩
  · cases hs

/-- **The lists agree until a change is not read.** While one leader leads and the session is
live, the client and the server agree on the client's locks at every instant, unless a request
that changed the server's list was served and its reply not read. From there on they disagree,
however often the call is sent again and whatever comes of it, until the client makes another
call. -/
theorem agree_until_change_unread {n : Node} {k : Cluster} (hl : k.leads n = true) (listen : Addr)
    (lease : LeaseConfig) (acts : List (Nat × Server.Act)) (config : ClientConfig) (addr : Addr)
    (begun now : Nat) {x₀ : Link} {es : List Event}
    (hs : start? config addr begun now (Server.run { node := n, listen, lease } k acts) = some x₀)
    (hr : x₀.run? es = some x) :
    (untouched x₀ es = true → x.Agree) ∧
      ∀ y, x.Agree → x.next? .unread = some y → y.listed? ≠ x.listed? →
        ∀ es' z, (∀ id op, .call id op ∉ es') → y.run? es' = some z → ¬ z.Agree := by
  obtain ⟨ht, he⟩ := tied_start? ((Server.leads_fresh listen lease hl).run acts) hs
  refine ⟨fun hu => agree_iff.2 (ht.agree_of_untouched he hu hr), fun y ha hy hn es' z hc hz => ?_⟩
  obtain ⟨hty, hstep⟩ := (ht.run hr).step hy
  obtain ⟨d', hast, hd'⟩ := hstep.astray hn
  have hzs := hty.astray hast hc hz
  rw [agree_iff.1 ha, hd'] at hn
  rw [agree_iff, hzs.client, hzs.server]
  exact hn

/-- Someone else has made a lock. -/
def prelude : List (Nat × Server.Act) :=
  [(0, .request (.initSession "y")), (0, .request (.openLock "y" "L"))]

/-- A client of the leader begins its session. -/
def visit? : Option Link :=
  start? { client := "x", servers := ["a:1"], lease := .fast } "a:1" 0 0
    (Server.run { node := "a", listen := "a:1", lease := .fast } (Cluster.empty.elect "a") prelude)

/-- It asks for the lock. -/
def asking : List Event := [.goOn, .call 1 (.acquireLock "L" .exclusive), .goOn]

/-- It asks, the reply is not read, and it asks again. -/
def askingAgain : List Event :=
  asking ++ [.unread, .pass (ms 50), .goOn, .goOn, .answered]

theorem agree_until_acquire_unread :
    ∃ x₀ x y, visit? = some x₀ ∧ x₀.run? asking = some x ∧ x.Agree ∧ x.next? .unread = some y ∧
      ∀ es z, (∀ id op, .call id op ∉ es) → y.run? es = some z → ¬ z.Agree := by
  obtain ⟨x₀, h₀⟩ := Option.isSome_iff_exists.1 (show visit?.isSome from by decide +kernel)
  have hx : (visit?.bind (·.run? asking)).isSome := by decide +kernel
  have hu : visit?.all (untouched · asking) := by decide +kernel
  have hn : (visit?.bind (·.run? asking)).all (fun x => (x.next? .unread).any
      fun y => decide (y.listed? ≠ x.listed?)) = true := by
    decide +kernel
  rw [h₀] at hx hu hn
  obtain ⟨x, hx⟩ := Option.isSome_iff_exists.1 hx
  rw [hx] at hn
  obtain ⟨y, hy, hn⟩ := (Option.any_eq_true _ _).1 hn
  obtain ⟨hag, hs⟩ := agree_until_change_unread (n := "a") (by decide) "a:1" .fast prelude
    { client := "x", servers := ["a:1"], lease := .fast } "a:1" 0 0 h₀ hx
  exact ⟨x₀, x, y, h₀, hx, hag hu, hy, hs y (hag hu) hy (by simpa using hn)⟩

/-- The client and the server do not always agree when no lock call is pending: a lock that was
granted in a reply that was not read is on the server's list alone. -/
theorem not_agree_of_unread_grant :
    ¬ ∀ (n : Node) (k : Cluster) (listen : Addr) (lease : LeaseConfig)
      (acts : List (Nat × Server.Act)) (config : ClientConfig) (addr : Addr) (begun now : Nat)
      (x₀ x : Link) (es : List Event), k.leads n = true →
      start? config addr begun now (Server.run { node := n, listen, lease } k acts) = some x₀ →
      x₀.run? es = some x → x.client.calls = [] → x.Agree := by
  intro h
  have hx : visit?.any (fun x₀ => (x₀.run? askingAgain).any fun x => x.client.calls.isEmpty &&
      decide (x.listed? ≠ some x.client.held)) = true := by
    decide +kernel
  obtain ⟨x₀, h₀, hx⟩ := (Option.any_eq_true _ _).1 hx
  obtain ⟨x, hr, hx⟩ := (Option.any_eq_true _ _).1 hx
  simp only [Bool.and_eq_true, List.isEmpty_iff, decide_eq_true_eq] at hx
  exact hx.2 (agree_iff.1 (h "a" _ "a:1" .fast prelude _ "a:1" 0 0 x₀ x askingAgain (by decide)
    h₀ hr hx.1))

end Link

end LockCell
