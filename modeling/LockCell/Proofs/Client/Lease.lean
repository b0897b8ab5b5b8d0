import LockCell.Proofs.Client.Steps

/-
  LockCell.Proofs.Client.Lease — which leases a client relies on, and what it has out.

  An active client relies on its lease, and on what the answers say that it has yet to look
  at; a client in jeopardy relies on nothing until a candidate has taken its session
  (`Relies`). `Tidy` ties the client to the requests that it has out: a keep-alive of the
  present generation goes to the present server, and out of jeopardy no candidate is being
  asked. Both hold on whatever the client does (`Keeps`). What it relies on grows by answers
  only (`relies_keepAlive`, `relies_probe`).
-/

namespace LockCell

/-- A request that is out: what it is for, where it goes, and what it asks. -/
abbrev Sent := Ask × Addr × Option Request

def Effect.sent? : Effect → Option Sent
  | .send ask a q => some (ask, a, some q)
  | .cancel _ | .finish .. => none

def sentOf (l : List Effect) : List Sent := l.filterMap Effect.sent?

/-- Where candidates are being asked. -/
def probesOf (out : List Sent) : List Addr :=
  out.filterMap fun x => if x.1 = .probe then some x.2.1 else none

@[simp] theorem sentOf_nil : sentOf [] = [] := rfl

@[simp] theorem sentOf_send (ask : Ask) (a : Addr) (q : Request) (l : List Effect) :
    sentOf (.send ask a q :: l) = (ask, a, some q) :: sentOf l := rfl

@[simp] theorem sentOf_cancel (ask : Ask) (l : List Effect) :
    sentOf (.cancel ask :: l) = sentOf l := rfl

@[simp] theorem sentOf_finish (id : Nat) (r : Except Error Response) (l : List Effect) :
    sentOf (.finish id r :: l) = sentOf l := rfl

@[simp] theorem probesOf_nil : probesOf [] = [] := rfl

theorem probesOf_append (l m : List Sent) : probesOf (l ++ m) = probesOf l ++ probesOf m :=
  List.filterMap_append ..

theorem mem_probesOf {a : Addr} {q : Option Request} {out : List Sent}
    (h : (Ask.probe, a, q) ∈ out) : a ∈ probesOf out :=
  List.mem_filterMap.2 ⟨_, h, by simp⟩

/-- The candidate that is being asked. -/
def Probe.asked : Probe → List Addr
  | .asking a _ _ => [a]
  | .idle | .resting _ => []

namespace ClientSession

/-- The client counts on a lease of length `l` from `st` at the server at `a`. -/
inductive Relies (s : ClientSession) : Addr → Nat → Nat → Prop
  | lease : s.phase = .active → Relies s s.server s.start s.lease
  /-- An answer says so that is still in the inbox. -/
  | told {k : KeepAlive} : s.phase = .active → (s.generation, .ok k) ∈ s.inbox →
      k.expired = false → Relies s s.server s.start k.lease
  /-- A candidate says so. -/
  | found {a : Addr} {k : KeepAlive} {st : Nat} : s.phase ≠ .expired → s.found = some (a, k, st) →
      k.expired = false → Relies s a st k.lease

/-- The client is in order at the time `now` with these requests out. -/
structure Tidy (s : ClientSession) (now : Nat) (out : List Sent) : Prop where
  startLe : s.start ≤ now
  closedIff : s.closed = true ↔ s.phase = .expired
  active : s.phase = .active → s.watch = .renewing ∧ s.probe = .idle ∧ s.found = none
  jeopardy : ∀ d, s.phase = .jeopardy d → s.watch = .searching
  foundIdle : s.phase ≠ .expired → s.found ≠ none → s.probe = .idle
  askedLe : ∀ a t rest, s.probe = .asking a t rest → t ≤ now
  foundLe : ∀ a k t, s.found = some (a, k, t) → t ≤ now
  inboxLe : ∀ x ∈ s.inbox, x.1 ≤ s.generation
  keepAlives : ∀ g a q, (.keepAlive g, a, q) ∈ out →
    g ≤ s.generation ∧ (g = s.generation → a = s.server) ∧ q = some (.keepAlive s.client none)
  probes : ∀ a q, (.probe, a, q) ∈ out → ∃ held, q = some (.keepAlive s.client (some held))
  locks : ∀ id a q, (.lock id, a, q) ∈ out → ∃ op : LockOp, q = some (op.request s.client)
  probing : s.phase ≠ .expired → (probesOf out).Sublist s.probe.asked

/-- The client has taken a step, and is in order after it without relying on more. -/
structure Keeps (s : ClientSession) (now : Nat) (out : List Sent) (x : Step) : Prop where
  tidy : x.1.Tidy now (out ++ sentOf x.2)
  client : x.1.client = s.client
  config : x.1.config = s.config
  relies : ∀ a st l, x.1.Relies a st l → s.Relies a st l

variable {s s' : ClientSession} {now : Nat} {out : List Sent}

/-- Time passes, and requests are lost. -/
theorem Tidy.mono (h : s.Tidy now out) {now' : Nat} {out' : List Sent} (hn : now ≤ now')
    (ho : out'.Sublist out) : s.Tidy now' out' where
  startLe := Nat.le_trans h.startLe hn
  closedIff := h.closedIff
  active := h.active
  jeopardy := h.jeopardy
  foundIdle := h.foundIdle
  askedLe a t rest hp := Nat.le_trans (h.askedLe a t rest hp) hn
  foundLe a k t hf := Nat.le_trans (h.foundLe a k t hf) hn
  inboxLe := h.inboxLe
  keepAlives g a q hm := h.keepAlives g a q (ho.mem hm)
  probes a q hm := h.probes a q (ho.mem hm)
  locks id a q hm := h.locks id a q (ho.mem hm)
  probing hp := (ho.filterMap _).trans (h.probing hp)

theorem Keeps.refl (h : s.Tidy now out) : s.Keeps now out (s, []) where
  tidy := by
    rw [sentOf_nil, List.append_nil]
    exact h
  client := rfl
  config := rfl
  relies _ _ _ hr := hr

/-- A step of a client that relies on no more than this one. -/
theorem Keeps.of {x : Step} (h : s'.Keeps now out x) (hc : s'.client = s.client)
    (hg : s'.config = s.config) (hr : ∀ a st l, s'.Relies a st l → s.Relies a st l) :
    s.Keeps now out x :=
  ⟨h.tidy, h.client.trans hc, h.config.trans hg, fun a st l hx => hr a st l (h.relies a st l hx)⟩

/-- A client that has expired relies on nothing. -/
theorem not_relies_of_expired (h : s.phase = .expired) (a : Addr) (st l : Nat) :
    ¬ s.Relies a st l := by
  intro hr
  cases hr with
  | lease hp | told hp =>
    rw [h] at hp
    cases hp
  | found hp => exact hp h

/-- While a candidate is being asked the client relies on nothing. -/
theorem Tidy.not_relies_of_asked (h : s.Tidy now out) (ha : s.probe.asked ≠ []) (a : Addr)
    (st l : Nat) : ¬ s.Relies a st l := by
  have hne : s.probe ≠ .idle := by
    intro e
    rw [e] at ha
    exact ha rfl
  intro hr
  cases hr with
  | lease hp | told hp => exact hne (h.active hp).2.1
  | found hp hf =>
    refine hne (h.foundIdle hp ?_)
    rw [hf]
    simp

/-- A lease that a client relies on began before now. -/
theorem Tidy.le_of_relies (h : s.Tidy now out) {a : Addr} {st l : Nat} (hr : s.Relies a st l) :
    st ≤ now := by
  cases hr with
  | lease | told => exact h.startLe
  | found _ hf => exact h.foundLe _ _ _ hf

/-! ## Keep-alives -/

theorem keeps_renew (h : s.Tidy now out) : s.Keeps now out (s.renew now) := by
  unfold renew
  split
  · refine ⟨⟨h.startLe, h.closedIff, h.active, h.jeopardy, h.foundIdle, h.askedLe, h.foundLe,
      h.inboxLe, ?_, ?_, ?_, ?_⟩, rfl, rfl, ?_⟩
    · intro g a q hm
      rcases List.mem_append.1 hm with hm | hm
      · exact h.keepAlives g a q hm
      · simp only [sentOf_send, sentOf_nil, List.mem_singleton, Prod.mk.injEq] at hm
        obtain ⟨hg, rfl, rfl⟩ := hm
        cases hg
        exact ⟨Nat.le_refl _, fun _ => rfl, rfl⟩
    · intro a q hm
      rcases List.mem_append.1 hm with hm | hm
      · exact h.probes a q hm
      · simp at hm
    · intro id a q hm
      rcases List.mem_append.1 hm with hm | hm
      · exact h.locks id a q hm
      · simp at hm
    · intro hp
      rw [probesOf_append]
      exact (List.append_nil (probesOf out)).symm ▸ h.probing hp
    · intro a st l hr
      cases hr with
      | lease hp => exact .lease hp
      | told hp hm he => exact .told hp hm he
      | found hp hf he => exact .found hp hf he
  · exact .refl h

@[simp] theorem sentOf_endWatch (s : ClientSession) : sentOf s.endWatch.2 = [] := by
  unfold endWatch
  dsimp only
  repeat' split
  all_goals rfl

/-- A client that has expired ends its watch. -/
theorem keeps_endWatch (h : s.Tidy now out) (hp : s.phase = .expired) :
    s.Keeps now out s.endWatch := by
  refine ⟨?_, rfl, rfl, fun a st l hr => ?_⟩
  · rw [sentOf_endWatch, List.append_nil]
    refine ⟨h.startLe, h.closedIff, fun ha => ?_, fun d hd => ?_, fun hn => absurd hp hn, ?_,
      h.foundLe, h.inboxLe, h.keepAlives, h.probes, h.locks, fun hn => absurd hp hn⟩
    · cases hp.symm.trans ha
    · cases hp.symm.trans hd
    · intro a t rest he
      cases he
  · exact absurd hr (not_relies_of_expired (s := s.endWatch.1) hp a st l)

theorem Tidy.expire (h : s.Tidy now out) : s.expire.Tidy now out where
  startLe := h.startLe
  closedIff := ⟨fun _ => rfl, fun _ => rfl⟩
  active ha := by cases ha
  jeopardy d hd := by cases hd
  foundIdle hn := absurd rfl hn
  askedLe := h.askedLe
  foundLe := h.foundLe
  inboxLe := h.inboxLe
  keepAlives := h.keepAlives
  probes := h.probes
  locks := h.locks
  probing hn := absurd rfl hn

theorem keeps_close (h : s.Tidy now out) : s.Keeps now out (s.close, []) := by
  refine (Keeps.refl h.expire).of rfl rfl fun a st l hr => ?_
  exact absurd hr (not_relies_of_expired rfl a st l)

theorem keeps_expire_endWatch (h : s.Tidy now out) : s.Keeps now out s.expire.endWatch := by
  refine (keeps_endWatch h.expire rfl).of rfl rfl fun a st l hr => ?_
  exact absurd hr (not_relies_of_expired rfl a st l)

/-- Fields that neither order nor reliance depends on may change. -/
theorem Tidy.of_eq (h : s.Tidy now out) (hc : s'.client = s.client) (hs : s'.server = s.server)
    (hst : s'.start = s.start) (hp : s'.phase = s.phase) (hcl : s'.closed = s.closed)
    (hw : s'.watch = s.watch) (hg : s'.generation = s.generation) (hi : ∀ x ∈ s'.inbox, x ∈ s.inbox)
    (hpr : s'.probe = s.probe) (hf : s'.found = s.found) : s'.Tidy now out := by
  refine ⟨?_, ?_, ?_, ?_, ?_, ?_, ?_, ?_, ?_, ?_, ?_, ?_⟩
  · exact hst ▸ h.startLe
  · rw [hcl, hp]
    exact h.closedIff
  · rw [hp, hw, hpr, hf]
    exact h.active
  · rw [hp, hw]
    exact h.jeopardy
  · rw [hp, hpr, hf]
    exact h.foundIdle
  · rw [hpr]
    exact h.askedLe
  · rw [hf]
    exact h.foundLe
  · intro x hx
    rw [hg]
    exact h.inboxLe x (hi x hx)
  · rw [hg, hs, hc]
    exact h.keepAlives
  · rw [hc]
    exact h.probes
  · rw [hc]
    exact h.locks
  · rw [hp, hpr]
    exact h.probing

/-- Likewise for what it relies on. -/
theorem Relies.of_eq {a : Addr} {st l : Nat} (hr : s'.Relies a st l) (hs : s'.server = s.server)
    (hst : s'.start = s.start) (hl : s'.lease = s.lease) (hp : s'.phase = s.phase)
    (hg : s'.generation = s.generation) (hi : ∀ x ∈ s'.inbox, x ∈ s.inbox)
    (hf : s'.found = s.found) : s.Relies a st l := by
  cases hr with
  | lease h =>
    rw [hs, hst, hl]
    exact .lease (hp ▸ h)
  | told h hm he =>
    rw [hs, hst]
    exact .told (hp ▸ h) (hg ▸ hi _ hm) he
  | found h hf' he => exact .found (hp ▸ h) (hf ▸ hf') he

/-- A step that sends nothing and changes nothing that matters. -/
theorem keeps_of_eq (h : s.Tidy now out) {l : List Effect} (hn : sentOf l = [])
    (hc : s'.client = s.client) (hcf : s'.config = s.config) (hs : s'.server = s.server)
    (hst : s'.start = s.start) (hl : s'.lease = s.lease) (hp : s'.phase = s.phase)
    (hcl : s'.closed = s.closed) (hw : s'.watch = s.watch) (hg : s'.generation = s.generation)
    (hi : s'.inbox = s.inbox) (hpr : s'.probe = s.probe) (hf : s'.found = s.found) :
    s.Keeps now out (s', l) where
  tidy := by
    rw [hn, List.append_nil]
    exact h.of_eq hc hs hst hp hcl hw hg (fun x hx => hi ▸ hx) hpr hf
  client := hc
  config := hcf
  relies _ _ _ hr := hr.of_eq hs hst hl hp hg (fun x hx => hi ▸ hx) hf

/-- The first answer in the inbox is looked at. -/
theorem keeps_take (h : s.Tidy now out) {g : Nat} {r : Except Error KeepAlive}
    {rest : List (Nat × Except Error KeepAlive)} (hi : s.inbox = (g, r) :: rest) :
    s.Keeps now out ({ s with inbox := rest }.take g r now) := by
  have hrest : ∀ x ∈ rest, x ∈ s.inbox := fun x hx => hi ▸ List.mem_cons_of_mem _ hx
  have tidy : ∀ (b : Bool) (n : Option Nat) (l : Nat),
      Tidy { s with inbox := rest, inFlight := b, next := n, lease := l } now out :=
    fun b n l => h.of_eq rfl rfl rfl rfl rfl rfl rfl hrest rfl rfl
  have timers : ∀ (b : Bool) (n : Option Nat),
      s.Keeps now out ({ s with inbox := rest, inFlight := b, next := n }.renew now) := fun b n =>
    (keeps_renew (tidy b n s.lease)).of rfl rfl fun a st l hr =>
      hr.of_eq rfl rfl rfl rfl rfl hrest rfl
  unfold take
  split
  · exact timers s.inFlight s.next
  · rename_i hg
    have hg : g = s.generation := by simpa using hg
    subst hg
    cases r with
    | ok k =>
      dsimp only
      split
      · refine (keeps_expire_endWatch (tidy false s.next s.lease)).of rfl rfl fun a st l hr => ?_
        exact hr.of_eq rfl rfl rfl rfl rfl hrest rfl
      · rename_i he
        have he : k.expired = false := by simpa using he
        refine (keeps_renew (tidy false (some now) k.lease)).of rfl rfl fun a st l hr => ?_
        cases hr with
        | lease hp => exact .told hp (hi ▸ List.mem_cons_self) he
        | told hp hm he => exact .told hp (hrest _ hm) he
        | found hp hf he => exact .found hp hf he
    | error e =>
      dsimp only
      split
      · exact timers false _
      · exact timers false s.next

@[simp] theorem sentOf_fallInJeopardy (s : ClientSession) : sentOf s.fallInJeopardy.2 = [] := by
  unfold fallInJeopardy
  dsimp only
  split <;> rfl

theorem keeps_fallInJeopardy (h : s.Tidy now out) (hp : s.phase = .active) :
    s.Keeps now out s.fallInJeopardy := by
  have hidle := (h.active hp).2.1
  refine ⟨?_, rfl, rfl, fun a st l hr => ?_⟩
  · rw [sentOf_fallInJeopardy, List.append_nil]
    refine ⟨h.startLe, ?_, ?_, fun d _ => rfl, fun _ _ => rfl, ?_, ?_, h.inboxLe, h.keepAlives,
      h.probes, h.locks, fun _ => ?_⟩
    · constructor
      · intro hc
        cases (h.closedIff.1 hc).symm.trans hp
      · intro hc
        cases hc
    · intro ha
      cases ha
    · intro a t rest he
      cases he
    · intro a k t he
      cases he
    · have hprobes := h.probing (by simp [hp])
      rw [hidle] at hprobes
      exact hprobes
  · cases hr with
    | lease hp | told hp => cases hp
    | found _ hf => cases hf

/-- A client that renews its lease is active. -/
theorem Tidy.active_of_renewing (h : s.Tidy now out) (hw : s.watch = .renewing)
    (hc : s.closed = false) : s.phase = .active := by
  cases hp : s.phase with
  | active => rfl
  | jeopardy d =>
    rw [h.jeopardy d hp] at hw
    cases hw
  | expired =>
    rw [h.closedIff.2 hp] at hc
    cases hc

/-! ## Jeopardy -/

/-- A candidate may be asked when no other is. -/
theorem keeps_ask (h : s.Tidy now out) (ha : s.phase ≠ .active)
    (hf : s.phase ≠ .expired → s.found = none) (ho : s.phase ≠ .expired → probesOf out = [])
    (l : List Addr) : s.Keeps now out (s.ask now l) := by
  cases l with
  | nil =>
    refine ⟨?_, rfl, rfl, fun a st l hr => ?_⟩
    · show Tidy _ _ (out ++ [])
      rw [List.append_nil]
      refine ⟨h.startLe, h.closedIff, fun hp => absurd hp ha, h.jeopardy, fun hp hn => absurd (hf hp) hn,
        ?_, h.foundLe, h.inboxLe, h.keepAlives, h.probes, h.locks, fun hp => ?_⟩
      · intro a t rest he
        cases he
      · rw [ho hp]
        exact .slnil
    · exact hr.of_eq rfl rfl rfl rfl rfl (fun x hx => hx) rfl
  | cons a rest =>
    refine ⟨⟨h.startLe, h.closedIff, fun hp => absurd hp ha, h.jeopardy,
      fun hp hn => absurd (hf hp) hn, ?_, h.foundLe, h.inboxLe, ?_, ?_, ?_, ?_⟩, rfl, rfl, ?_⟩
    · intro b t l he
      cases he
      exact Nat.le_refl _
    · intro g b q hm
      rcases List.mem_append.1 hm with hm | hm
      · exact h.keepAlives g b q hm
      · simp [ask] at hm
    · intro b q hm
      rcases List.mem_append.1 hm with hm | hm
      · exact h.probes b q hm
      · simp only [ask, sentOf_send, sentOf_nil, List.mem_singleton, Prod.mk.injEq] at hm
        exact ⟨s.held, hm.2.2⟩
    · intro id b q hm
      rcases List.mem_append.1 hm with hm | hm
      · exact h.locks id b q hm
      · simp [ask] at hm
    · intro hp
      rw [probesOf_append, ho hp]
      exact .refl _
    · intro b st l hr
      exact hr.of_eq rfl rfl rfl rfl rfl (fun x hx => hx) rfl

/-- The client goes over to the candidate that has taken its session. -/
theorem keeps_recover (h : s.Tidy now out) (hp : s.phase ≠ .expired) {a : Addr} {k : KeepAlive}
    {t : Nat} (hf : s.found = some (a, k, t)) (he : k.expired = false) :
    s.Keeps now out (s.recover a k t now) := by
  have hidle := h.foundIdle hp (by simp [hf])
  unfold recover
  refine (keeps_renew ?_).of rfl rfl fun b st l hr => ?_
  · refine ⟨h.foundLe _ _ _ hf, ?_, fun _ => ⟨rfl, rfl, rfl⟩, ?_, fun _ _ => rfl, ?_, ?_, ?_, ?_,
      h.probes, h.locks, fun _ => ?_⟩
    · constructor
      · intro hc
        exact absurd (h.closedIff.1 hc) hp
      · intro hc
        cases hc
    · intro d hd
      cases hd
    · intro b u rest he
      cases he
    · intro b j u he
      cases he
    · intro x hx
      exact Nat.le_succ_of_le (h.inboxLe x hx)
    · intro g b q hm
      obtain ⟨hle, -, hq⟩ := h.keepAlives g b q hm
      refine ⟨Nat.le_succ_of_le hle, fun hg => ?_, hq⟩
      have hg : g = s.generation + 1 := hg
      omega
    · have hprobes := h.probing hp
      rw [hidle] at hprobes
      exact hprobes
  · cases hr with
    | lease => exact .found hp hf he
    | told _ hm =>
      -- no answer is of a generation to come
      have hle := h.inboxLe _ hm
      exact absurd hle (Nat.not_succ_le_self s.generation)
    | found _ hn => cases hn

/-- A client that looks for a master is in jeopardy. -/
theorem Tidy.jeopardy_of_searching (h : s.Tidy now out) (hw : s.watch = .searching)
    (hc : s.closed = false) : ∃ d, s.phase = .jeopardy d := by
  cases hp : s.phase with
  | active =>
    rw [(h.active hp).1] at hw
    cases hw
  | jeopardy d => exact ⟨d, rfl⟩
  | expired =>
    rw [h.closedIff.2 hp] at hc
    cases hc

theorem keeps_watchStep? (h : s.Tidy now out) {x : Step} (hx : s.watchStep? now = some x) :
    s.Keeps now out x := by
  cases WatchStep.of_watchStep? hx with
  | ends hc => exact keeps_endWatch h (h.closedIff.1 hc)
  | hears _ _ hi => exact keeps_take h hi
  | falls hc hw => exact keeps_fallInJeopardy h (h.active_of_renewing hw hc)
  | renews => exact keeps_renew h
  | refused | runsOut => exact keeps_expire_endWatch h
  | recovers hc hw hf he =>
    obtain ⟨d, hp⟩ := h.jeopardy_of_searching hw hc
    exact keeps_recover h (by simp [hp]) hf he
  | asks _ _ hf hp hb =>
    have hidle : s.probe.asked = [] := by
      rcases hb with hb | ⟨t, hb, -⟩ <;> rw [hb] <;> rfl
    refine keeps_ask h (by simp [hp]) (fun _ => hf) (fun hne => ?_) _
    have hs := h.probing hne
    rw [hidle] at hs
    exact List.sublist_nil.1 hs

/-! ## Lock calls -/

theorem keeps_callStep? (h : s.Tidy now out) {d : LockCall} {x : Step}
    (hx : s.callStep? now d = some x) : s.Keeps now out x := by
  have quiet : ∀ (cs : List LockCall) (l : List Effect), sentOf l = [] →
      s.Keeps now out ({ s with calls := cs }, l) :=
    fun cs l hl => keeps_of_eq h hl rfl rfl rfl rfl rfl rfl rfl rfl rfl rfl rfl rfl
  cases CallStep.of_callStep? hx with
  | returns => exact quiet _ [] rfl
  | fails => exact quiet _ _ rfl
  | goes =>
    have ht : Tidy (s.setCall { d with state := .flying }) now out :=
      h.of_eq rfl rfl rfl rfl rfl rfl rfl (fun x hx => hx) rfl rfl
    refine ⟨⟨ht.startLe, ht.closedIff, ht.active, ht.jeopardy, ht.foundIdle, ht.askedLe,
      ht.foundLe, ht.inboxLe, ?_, ?_, ?_, ?_⟩, rfl, rfl, ?_⟩
    · intro g a q hm
      rcases List.mem_append.1 hm with hm | hm
      · exact ht.keepAlives g a q hm
      · simp at hm
    · intro a q hm
      rcases List.mem_append.1 hm with hm | hm
      · exact ht.probes a q hm
      · simp at hm
    · intro id a q hm
      rcases List.mem_append.1 hm with hm | hm
      · exact ht.locks id a q hm
      · simp only [sentOf_send, sentOf_nil, List.mem_singleton, Prod.mk.injEq] at hm
        exact ⟨d.op, hm.2.2⟩
    · intro hp
      rw [probesOf_append]
      exact (List.append_nil (probesOf out)).symm ▸ ht.probing hp
    · intro a st l hr
      exact hr.of_eq rfl rfl rfl rfl rfl (fun x hx => hx) rfl

/-- Whatever a client does by itself, it relies on nothing new. -/
theorem keeps_step? (h : s.Tidy now out) {x : Step} (hx : s.step? now = some x) :
    s.Keeps now out x := by
  rcases step?_cases hx with hx | ⟨-, d, -, hx⟩
  · exact keeps_watchStep? h hx
  · exact keeps_callStep? h hx

theorem keeps_call (h : s.Tidy now out) (id : Nat) (op : LockOp) :
    s.Keeps now out (s.call id op) := by
  unfold call
  split <;> exact keeps_of_eq h rfl rfl rfl rfl rfl rfl rfl rfl rfl rfl rfl rfl rfl

theorem keeps_abandon (h : s.Tidy now out) (id : Nat) : s.Keeps now out (s.abandon id) := by
  refine keeps_of_eq h ?_ rfl rfl rfl rfl rfl rfl rfl rfl rfl rfl rfl rfl
  split <;> rfl

theorem keeps_lockAnswer (h : s.Tidy now out) (id : Nat) (r : Except Error Response) :
    s.Keeps now out (s.lockAnswer id r now) := by
  unfold lockAnswer
  split
  · exact .refl h
  · split
    · unfold record
      repeat' split
      all_goals exact keeps_of_eq h rfl rfl rfl rfl rfl rfl rfl rfl rfl rfl rfl rfl rfl
    · split <;> exact keeps_of_eq h rfl rfl rfl rfl rfl rfl rfl rfl rfl rfl rfl rfl rfl

/-! ## Answers -/

/-- The lease that an answer speaks of, unless it is a refusal. -/
def grant? (r : Except Error Response) : Option KeepAlive :=
  match r with
  | .ok (.kept k) => if k.expired then none else some k
  | _ => none

theorem grant?_eq_some_iff {r : Except Error Response} {k : KeepAlive} :
    grant? r = some k ↔ keptOf r = .ok k ∧ k.expired = false := by
  unfold grant? keptOf
  split
  · rename_i j
    simp only [Except.ok.injEq]
    split
    · rename_i he
      constructor
      · intro h
        cases h
      · intro hx
        obtain ⟨rfl, hk⟩ := hx
        exact absurd (he.symm.trans hk) (by decide)
    · rename_i he
      constructor
      · intro h
        cases h
        exact ⟨rfl, by simpa using he⟩
      · intro ha
        obtain ⟨rfl, -⟩ := ha
        rfl
  · rename_i hn
    constructor
    · intro h
      cases h
    · intro hu
      obtain ⟨h, -⟩ := hu
      split at h
      · rename_i j
        exact absurd rfl (hn j)
      · cases h
      · cases h

theorem tidy_keepAlive (h : s.Tidy now out) {g : Nat} (hg : g ≤ s.generation)
    (r : Except Error Response) :
    (s.answer (.keepAlive g) r now).1.Tidy now (out ++ sentOf (s.answer (.keepAlive g) r now).2) := by
  show Tidy { s with inbox := s.inbox ++ [(g, keptOf r)] } now (out ++ [])
  rw [List.append_nil]
  refine ⟨h.startLe, h.closedIff, h.active, h.jeopardy, h.foundIdle, h.askedLe, h.foundLe, ?_,
    h.keepAlives, h.probes, h.locks, h.probing⟩
  intro x hx
  rcases List.mem_append.1 hx with hx | hx
  · exact h.inboxLe x hx
  · rw [List.mem_singleton.1 hx]
    exact hg

/-- An answer to a keep-alive of the present generation is relied on for the lease that runs. -/
theorem relies_keepAlive {g : Nat} {r : Except Error Response} {a : Addr} {st l : Nat}
    (hr : (s.answer (.keepAlive g) r now).1.Relies a st l) :
    s.Relies a st l ∨ g = s.generation ∧ s.Relies a st s.lease ∧ a = s.server ∧
      ∃ k, grant? r = some k ∧ l = k.lease := by
  have hr : Relies { s with inbox := s.inbox ++ [(g, keptOf r)] } a st l := hr
  cases hr with
  | lease hp => exact Or.inl (.lease hp)
  | @told k hp hm he =>
    rcases List.mem_append.1 hm with hm | hm
    · exact Or.inl (.told hp hm he)
    · obtain ⟨hg, hk⟩ := Prod.mk.inj (List.mem_singleton.1 hm)
      exact Or.inr ⟨hg.symm, .lease hp, rfl, k, grant?_eq_some_iff.2 ⟨hk.symm, he⟩, rfl⟩
  | found hp hf he => exact Or.inl (.found hp hf he)

theorem tidy_probe (h : s.Tidy now out) (ho : s.phase ≠ .expired → probesOf out = [])
    (r : Except Error Response) :
    (s.answer .probe r now).1.Tidy now (out ++ sentOf (s.answer .probe r now).2) := by
  show (s.probeAnswer (keptOf r) now).1.Tidy now (out ++ sentOf (s.probeAnswer (keptOf r) now).2)
  unfold probeAnswer
  split
  · rename_i a t rest hp
    have hna : s.phase ≠ .active := fun ha => by
      have hi := (h.active ha).2.1
      rw [hp] at hi
      cases hi
    have hnf : s.phase ≠ .expired → s.found = none := fun hne => by
      cases hf : s.found with
      | none => rfl
      | some x =>
        have hi := h.foundIdle hne (by simp [hf])
        rw [hp] at hi
        cases hi
    split
    · dsimp only
      rw [sentOf_nil, List.append_nil]
      refine ⟨h.startLe, h.closedIff, fun ha => absurd ha hna, h.jeopardy, fun _ _ => rfl, ?_, ?_,
        h.inboxLe, h.keepAlives, h.probes, h.locks, fun hne => ?_⟩
      · intro b u l he
        cases he
      · intro b k u he
        cases he
        exact h.askedLe _ _ _ hp
      · rw [ho hne]
        exact .slnil
    · exact (keeps_ask h hna hnf ho rest).tidy
  · dsimp only
    rw [sentOf_nil, List.append_nil]
    exact h

theorem probe_eq (s : ClientSession) (r : Except Error Response) (now : Nat) :
    (s.answer .probe r now).1.client = s.client ∧ (s.answer .probe r now).1.config = s.config := by
  show (s.probeAnswer (keptOf r) now).1.client = _ ∧ (s.probeAnswer (keptOf r) now).1.config = _
  unfold probeAnswer
  split
  · split
    · exact ⟨rfl, rfl⟩
    · unfold ask
      split <;> exact ⟨rfl, rfl⟩
  · exact ⟨rfl, rfl⟩

/-- A candidate's answer is relied on from when it was asked. -/
theorem relies_probe {r : Except Error Response} {a : Addr} {st l : Nat}
    (hr : (s.answer .probe r now).1.Relies a st l) :
    s.Relies a st l ∨ s.phase ≠ .expired ∧ (∃ rest, s.probe = .asking a st rest) ∧
      ∃ k, grant? r = some k ∧ l = k.lease := by
  have hr : Relies (s.probeAnswer (keptOf r) now).1 a st l := hr
  unfold probeAnswer at hr
  split at hr
  · rename_i b t rest hp
    split at hr
    · rename_i k hk
      cases hr with
      | lease h => exact Or.inl (.lease h)
      | told h hm he => exact Or.inl (.told h hm he)
      | found h hf he =>
        cases hf
        exact Or.inr ⟨h, ⟨rest, hp⟩, k, grant?_eq_some_iff.2 ⟨hk, he⟩, rfl⟩
    · left
      cases rest <;> exact hr.of_eq rfl rfl rfl rfl rfl (fun x hx => hx) rfl
  · exact Or.inl hr

/-! ## A new client, and one that rests -/

theorem tidy_begin (cfg : ClientConfig) (a : Addr) {st : Nat} (h : st ≤ now) :
    (begin cfg a st now).Tidy now [] where
  startLe := h
  closedIff := ⟨nofun, nofun⟩
  active _ := ⟨rfl, rfl, rfl⟩
  jeopardy d hd := by cases hd
  foundIdle _ hf := absurd rfl hf
  askedLe a t rest he := by cases he
  foundLe a k t he := by cases he
  inboxLe x hx := by cases hx
  keepAlives g a q hm := by cases hm
  probes a q hm := by cases hm
  locks id a q hm := by cases hm
  probing _ := .slnil

theorem relies_begin {cfg : ClientConfig} {a b : Addr} {t st l : Nat}
    (hr : (begin cfg a t now).Relies b st l) : b = a ∧ st = t ∧ l = cfg.lease.length := by
  cases hr with
  | lease => exact ⟨rfl, rfl, rfl⟩
  | told _ hm => cases hm
  | found _ hf => cases hf

/-- An active client that has nothing to do has not run out of its lease. -/
theorem Tidy.lt_deadline (h : s.Tidy now out) (hs : s.step? now = none) (hp : s.phase = .active) :
    now < s.deadline := by
  have hw := (h.active hp).1
  have hc : s.closed = false := by
    cases hc : s.closed with
    | false => rfl
    | true => cases (h.closedIff.1 hc).symm.trans hp
  unfold step? at hs
  simp only [Option.orElse_eq_orElse, Option.orElse_eq_or, Option.or_eq_none_iff] at hs
  have hs := hs.1
  unfold watchStep? renewStep? at hs
  rw [hw] at hs
  simp only [hc, Bool.false_eq_true, if_false] at hs
  split at hs
  · cases hs
  · split at hs
    · cases hs
    · omega

end ClientSession

end LockCell
