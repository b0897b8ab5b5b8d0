import LockCell.Proofs.Cell.Numbers
import LockCell.Proofs.Cell.Served

/-
  LockCell.Proofs.Cell.Takeover — a client in jeopardy, and the server that takes its session.

  A server that has no live session of the client makes it one with all that is claimed, or ends
  it. One that has a live session starts it over and says yes, whatever is claimed. So a yes means
  what it says (`backed_of_grant`) if that session lists the claims; and the claims are those that
  were on the client's list when it asked, so no lock may come on the list while it waits for the
  answer. `Covered` says so of one state of a cell, and `Regular` that the client is the only one
  of its name and hears all replies.

  In such a state whatever happens by itself is fair (`fair_next?`): a request to a server
  (`fair_reach`) is the client's claims (`fair_claims`), one of its lock calls (`fair_lockCall`),
  or leaves its locks alone (`rests_request`).
-/

namespace LockCell

/-- The request has come by now. -/
def Flight.due (f : Flight) (now : Nat) : Bool := f.alarm?.any (· ≤ now)

namespace Cell

variable {x : Client} {c c' : Cell} {i : Nat} {s : ClientSession}

/-- No reply is lost, and nobody else goes by the client's name. -/
structure Regular (x : Client) (c : Cell) : Prop where
  intact : ∀ f ∈ c.flights, f.back = .intact
  traps : ∀ t ∈ c.traps, t.mishap ≠ .dropAfter ∧ ∀ code, t.mishap ≠ .cutBody code
  lone : c.Lone x
  sole : ¬ c.Unborn x → ∀ e ∈ c.errands, ∀ q, e.request = some q → q.sender? = some x →
    ∃ i ask, e.caller = .session i ask

/-- What a client in jeopardy claims is all that it may hold, and whoever says yes has it. -/
structure Covered (x : Client) (c : Cell) : Prop where
  /-- No acquire is out when a candidate has said yes. -/
  settled : ∀ (i : Nat) (s : ClientSession) (e : Nat), c.clients[i]? = some s → s.client = x →
    s.phase = .jeopardy e → s.found ≠ none → ¬ s.Acquiring (c.out i)
  /-- None is served while a candidate is asked. -/
  quiet : ∀ (i : Nat) (s : ClientSession) (e : Nat), c.clients[i]? = some s → s.client = x →
    s.phase = .jeopardy e → ∀ a t rest, s.probe = .asking a t rest →
    ∀ f ∈ c.flights, f.due c.now = true → ∀ p m, f.request ≠ some (.acquireLock x p m)
  /-- A leader other than the server in use that has a live session of the client lists in it what
  is claimed. -/
  claims : ∀ (i : Nat) (s : ClientSession) (e : Nat), c.clients[i]? = some s → s.client = x →
    s.phase = .jeopardy e → ∀ f ∈ c.flights, f.due c.now = true →
    ∀ d, f.request = some (.keepAlive x (some d)) → f.addr = s.server ∨
      ∀ v, c.serverAt? f.addr = some v → c.cluster.leads v.node = true → v.Lists x d

/-! ## Requests at the servers -/

/-- A client session asks in its own name. -/
theorem Safe.sender_of_session (h : Safe x c) {e : Errand} (he : e ∈ c.errands) {ask : Ask}
    (hcl : e.caller = .session i ask) : ∃ (s : ClientSession) (q : Request),
      c.clients[i]? = some s ∧ e.request = some q ∧ q.sender? = some s.client := by
  have hout := mem_out_of_errand he hcl
  have hlt : i < c.clients.size := h.sentLt _ (mem_out.1 hout)
  have hi : c.clients[i]? = some c.clients[i] := Array.getElem?_eq_getElem hlt
  have ht := h.tidy i _ hi
  cases ask with
  | keepAlive g => exact ⟨_, _, hi, (ht.keepAlives g _ _ hout).2.2, rfl⟩
  | probe =>
    obtain ⟨held, hreq⟩ := ht.probes _ _ hout
    exact ⟨_, _, hi, hreq, rfl⟩
  | lock id =>
    obtain ⟨op, hreq⟩ := ht.locks id _ _ hout
    exact ⟨_, _, hi, hreq, LockOp.sender?_request op _⟩

/-- A session that is asked for is in jeopardy, or over. -/
theorem jeopardy_of_asking {now : Nat} {out : List Sent} (h : s.Tidy now out) {a : Addr} {t : Nat}
    {rest : List Addr} (hp : s.probe = .asking a t rest) (hne : s.phase ≠ .expired) :
    ∃ e, s.phase = .jeopardy e := by
  cases hph : s.phase with
  | active =>
    have hi := (h.active hph).2.1
    rw [hp] at hi
    cases hi
  | jeopardy e => exact ⟨e, rfl⟩
  | expired => exact absurd hph hne

theorem jeopardy_of_found {now : Nat} {out : List Sent} (h : s.Tidy now out)
    (hf : s.found ≠ none) (hne : s.phase ≠ .expired) : ∃ e, s.phase = .jeopardy e := by
  cases hph : s.phase with
  | active => exact absurd (h.active hph).2.2 hf
  | jeopardy e => exact ⟨e, rfl⟩
  | expired => exact absurd hph hne

/-- Whatever a server makes of the client's claims, it goes on to list what it has listed. -/
theorem Served.claim {a : Addr} {out : List Sent} (h : Served x c s out) (hb : s.Booked out)
    (ht : s.Tidy c.now out) {d : Dict Mode}
    (hout : (Ask.probe, a, some (Request.keepAlive s.client (some d))) ∈ out) {W : Client → Prop}
    {v v' : Server} (hv : c.servers[i]? = some v) {k' : Cluster}
    (hm : Server.Moves W c.now (v, c.cluster) (v', k'))
    (hs : ∀ e : Dict Mode, e.Within d → v.Lists x e → v'.Lists x e) :
    Served x (c.setServer i v' k') s out where
  knows := h.knows.setServer hv hm
  told g b q hmem := (h.told g b q hmem).setServer hv hm
  lists hne := (h.lists hne).setServer hv (hs _ (hb.claims hne _ _ hout)) (.refl _)
  found hne b k st hfound := by
    -- while a candidate is asked none has said yes
    have ha := (ht.probing hne).mem (mem_probesOf hout)
    rw [ht.foundIdle hne (by simp [hfound])] at ha
    cases ha

/-- A server that says yes to the client's claims has a session for it that lasts, and that lists
what it listed before. -/
theorem backed_of_grant (h : Safe x c) (hlen : 0 < c.lease.length) {f : Flight} {host : Host}
    (hh : c.hosts[f.addr]? = some host) {v v' : Server} (hv : c.servers[host.server]? = some v)
    {d e : Dict Mode} (hq : f.request = some (.keepAlive x (some d)))
    {r : Except Error Response} {k' : Cluster}
    (hs : v.serve c.cluster c.now (.keepAlive x (some d)) = (.done r, v', k')) {k : KeepAlive}
    (hk : ClientSession.grant? (outcomeOf f (f.deliver (.reply (toReply r)))) = some k)
    (he : e.Within d) (hl : c.cluster.leads v.node = true → v.Lists x e) :
    (c.setServer host.server v' k').Backed x f.addr e := by
  obtain ⟨y, rfl, hy⟩ | ⟨w, hw⟩ := outcome_reply f hq r
  · have hb := h.backs_serve hh hv hs (outcome_reply f hq _)
    rw [hy] at hk hb
    have hgrant := hk
    obtain ⟨hkept, -⟩ := ClientSession.grant?_eq_some_iff.1 hk
    cases ClientSession.keptOf_eq_ok hkept
    have hdone : (v.serve c.cluster c.now (.keepAlive x (some d))).1 = .done (.ok (.kept k)) := by
      rw [hs]
    have hleads := Server.leads_of_serve hdone fun e => by simp
    have hlease : k.lease = c.lease.length := by
      rw [Server.lease_of_claims (h.kept _ v hv) hdone, h.leased _ v hv]
    have hlists : v'.Lists x e := Server.lists_of_claims (hl hleads) he hs
    have hat' := serverAt?_setServer_self hh hv v' k'
    exact ⟨(lists_iff hat').2 hlists, k.lease, by omega,
      hb.2 (some d) k rfl hgrant _ 0 (Nat.le_refl _) nofun⟩
  · rw [hw] at hk
    cases hk

/-- A server works on the client's claims. -/
theorem fair_claims (h : Safe x c) (ho : Owns x c) (hl : c.Lone x) (hlen : 0 < c.lease.length)
    {f : Flight} (hf : f.errand ∈ c.errands) {host : Host} (hh : c.hosts[f.addr]? = some host)
    {v v' : Server} (hv : c.servers[host.server]? = some v) (hcl : f.caller = .session i .probe)
    (hi : c.clients[i]? = some s) (hx : s.client = x) {d : Dict Mode}
    (hq : f.request = some (.keepAlive x (some d)))
    (hcov : (∃ e, s.phase = .jeopardy e) → f.addr = s.server ∨
      (c.cluster.leads v.node = true → v.Lists x d)) {r : Except Error Response} {k' : Cluster}
    (hs : v.serve c.cluster c.now (.keepAlive x (some d)) = (.done r, v', k')) :
    Fair x c ((c.setServer host.server v' k').deliver f (f.deliver (.reply (toReply r)))) := by
  have hm := Server.moves_of_serve (h.kept _ v hv) hs
  have h₁ : Safe x (c.setServer host.server v' k') := h.serve hf hq hv hm
  have how := ho hl i s hi hx
  have ht := h.tidy i s hi
  have hout : (Ask.probe, f.addr, some (Request.keepAlive s.client (some d))) ∈ c.out i := by
    have hout := mem_out_of_errand hf hcl
    rw [show f.errand.request = f.request from rfl, hq, ← hx] at hout
    exact hout
  have only : ∀ t : ClientSession, c.clients[i]? = some t → t = s := fun t ht =>
    Option.some.inj (ht.symm.trans hi)
  have ho₁ : Owns x (c.setServer host.server v' k') := by
    intro _ j t hj htx
    obtain rfl := hl i j s t hi hj hx htx
    obtain rfl := only t hj
    exact ⟨how.booked, how.served.claim how.booked ht hout hv hm fun e hd he =>
      Server.lists_of_claims he hd hs⟩
  have hb : (c.setServer host.server v' k').Backs x f.addr f.request
      (outcomeOf f (f.deliver (.reply (toReply r)))) := by
    rw [hq]
    exact h.backs_serve hh hv hs (outcome_reply f hq r)
  refine (fair_deliver h₁ ho₁ hf hb (fun j id t hcl' => ?_) ?_).of_clients rfl
  · rw [hcl] at hcl'
    cases hcl'
  · intro j t hcl' hj htx hne a st rest k hp hk
    rw [hcl] at hcl'
    cases hcl'
    obtain rfl := only t hj
    -- the answer is that of the candidate that is asked
    have ha := (ht.probing hne).mem (mem_probesOf hout)
    rw [hp] at ha
    obtain rfl := List.mem_singleton.1 ha
    have hd := how.booked.claims hne _ _ hout
    refine backed_of_grant h hlen hh hv hq hs hk hd fun hleads => ?_
    rcases hcov (jeopardy_of_asking ht hp hne) with ha | hcov
    · have hat : c.serverAt? f.addr = some v := serverAt?_eq_some_iff.2 ⟨host, hh, hv⟩
      exact (lists_iff hat).1 (ha ▸ how.served.lists hne)
    · exact Server.Lists.mono (hcov hleads) hd

theorem deliver_session {f : Flight} {ask : Ask} (hcl : f.caller = .session i ask)
    (hi : (c.dropFlight f.id).clients[i]? = some s) (d : Delivery) :
    c.deliver f d = (c.dropFlight f.id).setClient i
      (s.answer ask (outcomeOf f d) (c.dropFlight f.id).now) := by
  unfold Cell.deliver
  simp only [hcl, hi]
  rfl

theorem outcome_intact {f : Flight} (hb : f.back = .intact) {q : Request}
    (hq : f.request = some q) (r : Reply) :
    outcomeOf f (f.deliver (.reply r)) = Delivery.ofReply r := by
  unfold outcomeOf Flight.deliver
  rw [hq, hb]
  rfl

/-- An acquire that is out is at the server in use, and if it is served only while no candidate
has been asked then none is. -/
theorem Own.acquires {out : List Sent} (h : Own x c s out) (ht : s.Tidy c.now out) {id : Nat}
    {a : Addr} {p : Path} {m : Mode}
    (hout : (Ask.lock id, a, some (Request.acquireLock s.client p m)) ∈ out)
    (hq : (∃ e, s.phase = .jeopardy e) → s.found = none ∧ ∀ a t rest, s.probe ≠ .asking a t rest)
    (hne : s.phase ≠ .expired) : a = s.server ∧ s.found = none ∧ probesOf out = [] := by
  refine ⟨h.booked.acquires hne id a p m hout, ?_, ?_⟩
  · by_cases hfound : s.found = none
    · exact hfound
    · exact (hq (jeopardy_of_found ht hfound hne)).1
  · have hidle : s.probe.asked = [] := by
      cases hp : s.probe with
      | idle | resting => rfl
      | asking b t rest => exact absurd hp ((hq (jeopardy_of_asking ht hp hne)).2 b t rest)
    exact List.sublist_nil.1 (hidle ▸ ht.probing hne)

/-- A server has answered a lock call as the client will book it. -/
theorem Served.book {a : Addr} {out : List Sent} (h : Served x c s out) (hk : c.Kept) {host : Host}
    (hh : c.hosts[a]? = some host) {v v' : Server} (hv : c.servers[host.server]? = some v)
    {W : Client → Prop} {k' : Cluster} (hm : Server.Moves W c.now (v, c.cluster) (v', k'))
    (hw : ¬ W x) {op : LockOp} {r : Except Error Bool}
    (hlists : ∀ d, v.Lists x d → v'.Lists x (op.book d r))
    (hop : s.phase ≠ .expired → ∀ p m, op = .acquireLock p m → a = s.server ∧ s.found = none) :
    Served x (c.setServer host.server v' k') { s with held := op.book s.held r } out where
  knows := h.knows.setServer hv hm
  told g b q hmem := (h.told g b q hmem).setServer hv hm
  lists hne := by
    by_cases hacq : ∃ p m, op = .acquireLock p m
    · obtain ⟨p, m, hacq⟩ := hacq
      obtain ⟨rfl, -⟩ := hop hne p m hacq
      have hat : c.serverAt? s.server = some v := serverAt?_eq_some_iff.2 ⟨host, hh, hv⟩
      exact (lists_iff (serverAt?_setServer_self hh hv v' k')).2
        (hlists _ ((lists_iff hat).1 (h.lists hne)))
    · exact (h.lists hne).setServer hv (hlists _)
        (LockOp.book_within (fun p m e => hacq ⟨p, m, e⟩) _ _)
  found hne b k st hfound he := by
    by_cases hacq : ∃ p m, op = .acquireLock p m
    · obtain ⟨p, m, hacq⟩ := hacq
      rw [(hop hne p m hacq).2] at hfound
      cases hfound
    · exact (h.found hne b k st hfound he).setServer hk hv hm hw (hlists _)
        (LockOp.book_within (fun p m e => hacq ⟨p, m, e⟩) _ _)

/-- A server answers a lock call of the client. -/
theorem fair_lockCall (h : Safe x c) (ho : Owns x c) (hl : c.Lone x) {f : Flight}
    (hf : f.errand ∈ c.errands) (hback : f.back = .intact) {host : Host}
    (hh : c.hosts[f.addr]? = some host) {v v' : Server} (hv : c.servers[host.server]? = some v)
    {id : Nat} (hcl : f.caller = .session i (.lock id)) (hi : c.clients[i]? = some s)
    (hx : s.client = x) {q : Request} (hq : f.request = some q)
    (hcov : (∃ e, s.phase = .jeopardy e) → ∀ p m, q = .acquireLock s.client p m →
      s.found = none ∧ ∀ a t rest, s.probe ≠ .asking a t rest)
    {r : Except Error Response} {k' : Cluster}
    (hs : v.serve c.cluster c.now q = (.done r, v', k')) :
    Fair x c ((c.setServer host.server v' k').deliver f (f.deliver (.reply (toReply r)))) := by
  have how := ho hl i s hi hx
  have ht := h.tidy i s hi
  have hout : (Ask.lock id, f.addr, some q) ∈ c.out i := hq ▸ mem_out_of_errand hf hcl
  obtain ⟨d, hd, rfl, -, hreq⟩ := how.booked.flies id _ _ hout
  obtain rfl := Option.some.inj hreq
  rw [hx] at hs
  obtain ⟨r', hr', hlists⟩ := Server.lists_serve_request v c.cluster x c.now d.op
  rw [hs] at hr' hlists
  obtain rfl : r = r'.map d.op.response := by
    cases hr'
    rfl
  have hm := Server.moves_of_serve (h.kept _ v hv) hs
  have hclaims : ¬ (d.op.request x).Claims x := by
    cases d.op <;> exact id
  have acquires : s.phase ≠ .expired → ∀ p m, d.op = .acquireLock p m →
      f.addr = s.server ∧ s.found = none ∧ probesOf (c.out i) = [] := by
    intro hne p m hop
    have hreq : d.op.request s.client = .acquireLock s.client p m := by rw [hop]; rfl
    exact how.acquires ht (hreq ▸ hout) (fun hj => hcov hj p m hreq) hne
  have h₁ : Safe x (c.setServer host.server v' k') := h.serve hf hq hv (hx ▸ hm)
  have hdrop := calm_dropFlight (x := x) (c.setServer host.server v' k') f.id
  have hfade := fades_dropFlight (W := fun _ => False) (c.setServer host.server v' k') f.id
  have hi₁ : ((c.setServer host.server v' k').dropFlight f.id).clients[i]? = some s :=
    hfade.clients ▸ hi
  have hsub : (((c.setServer host.server v' k').dropFlight f.id).out i).Sublist (c.out i) :=
    hfade.out i
  have hid := not_mem_locksOf_dropFlight (c := c.setServer host.server v' k') hf hcl how.booked.once
  have hquiet : s.phase ≠ .expired → (∃ p m, d.op = .acquireLock p m) →
      probesOf (((c.setServer host.server v' k').dropFlight f.id).out i) = [] := by
    rintro hne ⟨p, m, hop⟩
    have hnone : (probesOf _).Sublist (probesOf (c.out i)) := hsub.filterMap _
    exact List.sublist_nil.1 ((acquires hne p m hop).2.2 ▸ hnone)
  -- the client books the answer
  obtain ⟨b, hb, hbooked⟩ := ClientSession.booked_lockAnswer_reply (how.booked.mono hsub) hd hid
    hquiet r' ((c.setServer host.server v' k').dropFlight f.id).now
  rw [deliver_session hcl hi₁, outcome_intact hback hq]
  simp only [ClientSession.answer]
  rw [hb]
  refine (fair_setClient_self hi₁ hx rfl fun _ => ⟨⟨?_, ?_⟩, fun hj ha => ?_⟩).of_clients
    hfade.clients
  · rw [sentOf_finish, sentOf_nil, List.append_nil]
    exact hbooked
  · rw [sentOf_finish, sentOf_nil, List.append_nil]
    have hserved := how.served.book h.kept hh hv hm hclaims hlists fun hne p m hop =>
      ⟨(acquires hne p m hop).1, (acquires hne p m hop).2.1⟩
    exact (hserved.calm hdrop h₁.kept hsub).of rfl id (Or.inl rfl) (.refl _) fun _ _ _ => Or.inl
  · obtain ⟨e, hj⟩ := hj
    cases hj.symm.trans ha

/-- What is asked in the client's name its session asks, the reply will be read, and it finds
the client as `Covered` says. -/
structure Heeded (x : Client) (c : Cell) (f : Flight) : Prop where
  intact : f.back = .intact
  sole : ¬ c.Unborn x → ∀ q, f.request = some q → q.sender? = some x →
    ∃ i ask, f.caller = .session i ask
  quiet : ∀ (i : Nat) (s : ClientSession), c.clients[i]? = some s → s.client = x →
    (∃ e, s.phase = .jeopardy e) → ∀ p m, f.request = some (.acquireLock x p m) →
    s.found = none ∧ ∀ a t rest, s.probe ≠ .asking a t rest
  claims : ∀ (i : Nat) (s : ClientSession), c.clients[i]? = some s → s.client = x →
    (∃ e, s.phase = .jeopardy e) → ∀ d, f.request = some (.keepAlive x (some d)) →
    f.addr = s.server ∨ ∀ v, c.serverAt? f.addr = some v → c.cluster.leads v.node = true →
      v.Lists x d

/-- A request that is none of the client's session, or renews its lease, leaves its locks alone. -/
theorem rests_request (h : Safe x c) (ho : Owns x c) (hl : c.Lone x) {f : Flight}
    (hf : f.errand ∈ c.errands) (hfit : Heeded x c f) {host : Host}
    (hh : c.hosts[f.addr]? = some host) {v : Server} (hv : c.servers[host.server]? = some v)
    {q : Request} (hq : f.request = some q)
    (hask : ∀ i ask s, f.caller = .session i ask → c.clients[i]? = some s → s.client = x →
      ∃ g, ask = .keepAlive g) :
    c.Unborn x ∨ ¬ q.Claims x ∧ Server.Rests x v (v.serve c.cluster c.now q).2.1 := by
  by_cases hu : c.Unborn x
  · exact Or.inl hu
  · right
    by_cases hsend : q.sender? = some x
    · obtain ⟨i, ask, hcl⟩ := hfit.sole hu q hq hsend
      obtain ⟨s, q', hi, hq', hs⟩ := h.sender_of_session hf hcl
      have hq' : f.request = some q' := hq'
      rw [hq] at hq'
      obtain rfl := Option.some.inj hq'
      rw [hsend] at hs
      have hx := (Option.some.inj hs).symm
      obtain ⟨g, rfl⟩ := hask i ask s hcl hi hx
      have hout := mem_out_of_errand hf hcl
      obtain ⟨-, -, hreq⟩ := (h.tidy i s hi).keepAlives g _ _ hout
      have hreq : f.request = some (.keepAlive s.client none) := hreq
      rw [hq, hx] at hreq
      obtain rfl := Option.some.inj hreq
      -- the session that it renews is there
      obtain ⟨w, hw, hreg⟩ := (ho hl i s hi hx).served.told g _ _ hout
      have hat : c.serverAt? f.addr = some v := serverAt?_eq_some_iff.2 ⟨host, hh, hv⟩
      have hw : c.serverAt? f.addr = some w := hw
      rw [hat] at hw
      obtain rfl := Option.some.inj hw
      obtain ⟨j, hj⟩ := Dict.getElem?_of_mem hreg
      obtain ⟨t, ht, -⟩ := (h.kept _ v hv).registered x j hj
      refine ⟨not_false, ?_⟩
      exact Server.rests_renewal (h.kept _ v hv) (Server.session?_eq_some_iff.2 ⟨hj, ht⟩)
    · refine ⟨Request.not_claims_of_sender hsend, ?_⟩
      exact Server.rests_does (h.kept _ v hv) (a := .request q) hsend nofun

/-- A server works for others, or before the client has a session. -/
theorem owns_setServer (h : Safe x c) (ho : Owns x c) {j : Nat} {v v' : Server}
    (hv : c.servers[j]? = some v) {q : Request} {k' : Cluster}
    (hm : Server.Moves q.Claims c.now (v, c.cluster) (v', k'))
    (hq : c.Unborn x ∨ ¬ q.Claims x ∧ Server.Rests x v v') : Owns x (c.setServer j v' k') := by
  rcases hq with hu | ⟨hc, hr⟩
  · exact fun _ i s hi hx => absurd hx (hu i s hi)
  · exact ho.calm (calm_setServer hv hm hc fun _ => hr) h.kept

theorem calm_parked (h : Safe x c) {f : Flight} (hf : f.errand ∈ c.errands) (w : Waiter) :
    Calm x c { c.setFlight { f with place := .parked } with
      waiters := (c.setFlight { f with place := .parked }).waiters ++ [w] } := by
  have hplace : ∀ g ∈ c.flights, g.id = f.id → g.errand = f.errand := fun g hg hid =>
    h.errand_eq (List.mem_map_of_mem hg) hf hid
  exact (calm_setFlight (f := { f with place := .parked }) hplace).trans (calm_waiters _ _)

theorem fair_reach (h : Safe x c) (ho : Owns x c) (hl : c.Lone x) (hlen : 0 < c.lease.length)
    {f : Flight} (hf : f.errand ∈ c.errands) (hfit : Heeded x c f) : Fair x c (c.reach f) := by
  unfold Cell.reach
  dsimp only
  split
  · exact fair_deliver_error h ho hf (outcome_unsent f)
  · rename_i i v hsrv
    obtain ⟨host, hh, -, rfl, hv⟩ := server_of_host hsrv
    split
    · rename_i hq
      refine fair_deliver_other h ho hf ?_ fun i ask s hcl _ => ?_
      · rw [hq]
        exact backs_none _ _ _ _
      · obtain ⟨_, q, -, hreq, -⟩ := h.sender_of_session hf hcl
        cases hq.symm.trans hreq
    · rename_i q hq
      have hm : Server.Moves q.Claims c.now (v, c.cluster) (v.serve c.cluster c.now q).2 :=
        Server.moves_serve (h.kept _ v hv) q
      by_cases hask : ∀ i ask s, f.caller = .session i ask → c.clients[i]? = some s →
          s.client = x → ∃ g, ask = .keepAlive g
      · have hr := rests_request h ho hl hf hfit hh hv hq hask
        revert hm hr
        rcases hs : v.serve c.cluster c.now q with ⟨r | ⟨j, t⟩, v', k'⟩ <;> intro hm hr
        · have h₁ : Safe x (c.setServer host.server v' k') := h.serve hf hq hv hm
          refine (fair_deliver h₁ (owns_setServer h ho hv hm hr) hf ?_ ?_ ?_).of_clients rfl
          · rw [hq]
            exact h.backs_serve hh hv hs (outcome_reply f hq r)
          · intro i id s hcl hi hx
            obtain ⟨g, hg⟩ := hask i _ s hcl hi hx
            cases hg
          · intro i s hcl hi hx
            obtain ⟨g, hg⟩ := hask i _ s hcl hi hx
            cases hg
        · have h₁ : Safe x (c.setServer host.server v' k') := h.serve hf hq hv hm
          have hp := calm_parked h₁ hf ⟨host.server, j, t, .flight f.id⟩
          exact (hp.fair h₁.kept (owns_setServer h ho hv hm hr)).of_clients rfl
      · simp only [not_forall] at hask
        obtain ⟨i, ask, s, hcl, hi, hx, hask⟩ := hask
        have hout := mem_out_of_errand hf hcl
        have hat : c.serverAt? f.addr = some v := serverAt?_eq_some_iff.2 ⟨host, hh, hv⟩
        cases ask with
        | keepAlive g => exact absurd ⟨g, rfl⟩ hask
        | probe =>
          obtain ⟨d, hreq⟩ := (h.tidy i s hi).probes _ _ hout
          have hreq : f.request = some (.keepAlive s.client (some d)) := hreq
          rw [hx] at hreq
          obtain rfl := Option.some.inj (hq.symm.trans hreq)
          rcases hs : v.serve c.cluster c.now (.keepAlive x (some d)) with ⟨r | ⟨j, t⟩, v', k'⟩
          · refine fair_claims h ho hl hlen hf hh hv hcl hi hx hq (fun hj => ?_) hs
            exact (hfit.claims i s hi hx hj d hq).imp_right fun hv => hv v hat
          · obtain ⟨y, hy⟩ := Server.request_of_parked (congrArg Prod.fst hs)
            cases hy
        | lock id =>
          rcases hs : v.serve c.cluster c.now q with ⟨r | ⟨j, t⟩, v', k'⟩
          · refine fair_lockCall h ho hl hf hfit.intact hh hv hcl hi hx hq (fun hj p m e => ?_) hs
            exact hfit.quiet i s hi hx hj p m (hx ▸ e ▸ hq)
          · obtain ⟨y, rfl⟩ := Server.request_of_parked (congrArg Prod.fst hs)
            obtain ⟨op, hreq⟩ := (h.tidy i s hi).locks id _ _ hout
            have hreq : f.request = some (op.request s.client) := hreq
            have hreq := Option.some.inj (hq.symm.trans hreq)
            cases op <;> cases hreq

/-! ## What happens by itself -/

theorem fair_arrive (h : Safe x c) (ho : Owns x c) (hr : Regular x c) (hlen : 0 < c.lease.length)
    {f : Flight} (hf : f.errand ∈ c.errands) (hfit : Heeded x c f) : Fair x c (c.arrive f) := by
  unfold Cell.arrive
  split
  · exact fair_reach h ho hr.lone hlen hf hfit
  · rename_i m traps hs
    obtain ⟨⟨t, ht, hm⟩, htraps⟩ := spring_eq_some hs
    have hc : Calm x c { c with traps } := .of_eq rfl rfl rfl rfl fun _ => .refl _
    have h₁ : Safe x { c with traps } := h.fade (fades_traps htraps)
    have ho₁ : Owns x { c with traps } := ho.calm hc h.kept
    have hplace : ∀ g ∈ c.flights, g.id = f.id → g.errand = f.errand := fun g hg hid =>
      h.errand_eq (List.mem_map_of_mem hg) hf hid
    refine hc.trans_fair ?_
    cases m with
    | refuse | reset => exact fair_deliver_error h₁ ho₁ hf (outcome_unsent f)
    | drop => exact fair_deliver_error h₁ ho₁ hf (outcome_closed f)
    | dropAfter => exact absurd hm (hr.traps t ht).1
    | cutBody code => exact absurd hm ((hr.traps t ht).2 code)
    | reply code body => exact absurd hm (h.honest t ht code body)
    | hang =>
      exact (calm_setFlight (c := { c with traps }) (f := { f with place := .hanging })
        hplace).fair h₁.kept ho₁
    | delay span =>
      exact (calm_setFlight (c := { c with traps })
        (f := { f with place := .delayed (c.now + span) }) hplace).fair h₁.kept ho₁

/-- A request of the client finds it as the cell has it. -/
theorem Regular.heeded (hr : Regular x c) (h : Safe x c) (hcov : Covered x c) {f : Flight}
    (hf : f ∈ c.flights) (hdue : f.due c.now = true) : Heeded x c f where
  intact := hr.intact f hf
  sole hu q hq := hr.sole hu f.errand (List.mem_map_of_mem hf) q hq
  quiet i s hi hx hj p m hq := by
    obtain ⟨e, hj⟩ := hj
    refine ⟨?_, fun a t rest hp => hcov.quiet i s e hi hx hj a t rest hp f hf hdue p m hq⟩
    by_cases hfound : s.found = none
    · exact hfound
    · -- the request is one of the session's acquires
      have hmem : f.errand ∈ c.errands := List.mem_map_of_mem hf
      obtain ⟨j, ask, hcl⟩ := hr.sole (fun hu => hu i s hi hx) f.errand hmem _ hq rfl
      obtain ⟨t, q, hj', hq', hs⟩ := h.sender_of_session hmem hcl
      have hq' : f.request = some q := hq'
      rw [hq] at hq'
      obtain rfl := Option.some.inj hq'
      have htx : t.client = x := (Option.some.inj hs).symm
      obtain rfl := hr.lone i j s t hi hj' hx htx
      have hout := mem_out_of_errand hmem hcl
      have ht := h.tidy i s hi
      refine absurd ?_ (hcov.settled i s e hi hx hj hfound)
      cases ask with
      | keepAlive g => cases hq.symm.trans (ht.keepAlives g _ _ hout).2.2
      | probe =>
        obtain ⟨d, hd⟩ := ht.probes _ _ hout
        cases hq.symm.trans hd
      | lock id =>
        refine ⟨id, f.addr, p, m, ?_⟩
        rw [hx, ← hq]
        exact hout
  claims i s hi hx hj d hq := by
    obtain ⟨e, hj⟩ := hj
    exact hcov.claims i s e hi hx hj f hf hdue d hq

theorem fair_flightStep? (h : Safe x c) (ho : Owns x c) (hr : Regular x c) (hcov : Covered x c)
    (hlen : 0 < c.lease.length) (hc : c.flightStep? = some c') : Fair x c c' := by
  obtain ⟨f, hf, hc⟩ := List.exists_of_findSome?_eq_some hc
  have hmem : f.errand ∈ c.errands := List.mem_map_of_mem hf
  split at hc
  · rename_i t hp
    split at hc
    · rename_i hle
      cases hc
      have hdue : f.due c.now = true := by simp [Flight.due, Flight.alarm?, hp, hle]
      exact fair_arrive h ho hr hlen hmem (hr.heeded h hcov hf hdue)
    · cases hc
  · rename_i t hp
    split at hc
    · rename_i hle
      cases hc
      have hdue : f.due c.now = true := by simp [Flight.due, Flight.alarm?, hp, hle]
      exact fair_reach h ho hr.lone hlen hmem (hr.heeded h hcov hf hdue)
    · cases hc
  · cases hc
  · cases hc

/-- A parked keep-alive is answered. -/
theorem fair_release (h : Safe x c) (ho : Owns x c) {w : Waiter} (hw : w ∈ c.waiters)
    {r : Except Error KeepAlive}
    (hb : ∀ e ∈ c.errands, w.holder = .flight e.id → ∀ r',
      (∃ y, r.map Response.kept = .ok y ∧ r' = .ok y) ∨ (∃ e, r' = .error e) →
      c.Backs x e.addr e.request r') : Fair x c (c.release w r) := by
  have hc : Calm x c { c with waiters := c.waiters.filter (·.holder ≠ w.holder) } :=
    calm_waiters _ _
  have h₁ : Safe x { c with waiters := c.waiters.filter (·.holder ≠ w.holder) } :=
    h.fade (fades_waiters fun u hu => (List.mem_filter.1 hu).1)
  have ho₁ := ho.calm hc h.kept
  unfold Cell.release
  dsimp only
  refine hc.trans_fair ?_
  split
  · exact (calm_finish _ _ _).fair h₁.kept ho₁
  · exact (calm_finish _ _ _).fair h₁.kept ho₁
  · rename_i id hid
    split
    · rename_i f hfind
      have hf : f.errand ∈ c.errands := List.mem_map_of_mem (List.mem_of_find?_eq_some hfind)
      obtain rfl : f.id = id := by simpa using List.find?_some hfind
      obtain ⟨y, hy, -⟩ := h.parked w hw f.errand hf hid
      have hy : f.request = some (.keepAlive y none) := hy
      refine fair_deliver h₁ ho₁ hf ?_ (fun i id s hcl hi _ => ?_) fun i s hcl hi _ => ?_
      · rw [hy]
        exact hy ▸ hb f.errand hf hid _ (outcome_reply f hy _)
      · obtain ⟨op, hreq⟩ := (h.tidy i s hi).locks id _ _ (mem_out_of_errand hf hcl)
        have hreq := Option.some.inj (hy.symm.trans hreq)
        cases op <;> cases hreq
      · obtain ⟨d, hreq⟩ := (h.tidy i s hi).probes _ _ (mem_out_of_errand hf hcl)
        cases hy.symm.trans hreq
    · exact (Calm.refl _).fair h₁.kept ho₁

theorem fair_sessionStep? (h : Safe x c) (ho : Owns x c) (hc : c.sessionStep? = some c') :
    Fair x c c' := by
  obtain ⟨i, v, j, hv, hc⟩ := exists_sessionStepAt? hc
  unfold sessionStepAt? at hc
  split at hc
  · rename_i v' k' hl
    cases hc
    have hcalm := calm_aside (x := x) h.kept hv (a := .look j) rfl (by simp) not_false
    simp only [Server.does, hl, Option.getD_some] at hcalm
    exact hcalm.fair h.kept ho
  · split at hc
    · cases hc
    · rename_i t r v' ha
      have hcalm := calm_aside (x := x) h.kept hv (a := .answer j) rfl (by simp) not_false
      simp only [Server.does, ha] at hcalm
      have h₁ : Safe x (c.setServer i v' c.cluster) :=
        h.fade (fades_setServer hv (Server.moves_answer? ha))
      dsimp only at hc
      split at hc
      · rename_i w hw
        cases hc
        have hmem := List.mem_of_find?_eq_some hw
        have hwp := List.find?_some hw
        simp only [decide_eq_true_eq] at hwp
        obtain ⟨rfl, rfl, -⟩ := hwp
        refine hcalm.trans_fair (fair_release h₁ (ho.calm hcalm h.kept) hmem fun e he hid r' hr => ?_)
        obtain ⟨y, hy, hseat⟩ := h.parked w hmem e he hid
        exact h.backs_answer? hv ha hy hseat hr
      · cases hc
        exact hcalm.fair h.kept ho

theorem fair_perform (hk : c.Kept) (ho : Owns x c) {p : ProgramRun} (hid : c.Free p.id) :
    Fair x c (c.perform p) := by
  unfold perform
  split
  · refine (calm_searchOn _ _ _ fun s hs => ?_).fair hk ho
    exact absurd hs begin_ne_found
  · split
    · rename_i k s hs
      have hi := (client_of_clientOf? hs).2
      exact fair_call hk ho hi (fun _ => hid k s hi) _
    · exact (Calm.refl c).fair hk ho
  · exact (calm_send _ (fun _ _ e => by cases e) _ _).fair hk ho
  · exact (Calm.refl c).fair hk ho
  · exact (Calm.refl c).fair hk ho
  · exact (Calm.refl c).fair hk ho
  · split
    · rename_i k s hs _
      have hf := fair_close hk ho (client_of_clientOf? hs).2
      exact hf.calm ((calm_programs _ _).trans (calm_finish _ _ _)) hk
    · exact ((calm_programs _ _).trans (calm_finish _ _ _)).fair hk ho

theorem fair_moveProgram (hk : c.Kept) (ho : Owns x c) {p : ProgramRun} (hid : c.Free p.id)
    (m : Program.Move) : Fair x c (c.moveProgram p m) := by
  have hc : Calm x c (c.setProgram { p with program := m.1, task := m.2 }) := calm_programs _ _
  have ho₁ := ho.calm hc hk
  exact hc.trans_fair (fair_perform (c := c.setProgram { p with program := m.1, task := m.2 }) hk ho₁
    hid)

theorem fair_mailStep? (h : Safe x c) (ho : Owns x c) (hn : Single c)
    (hc : c.mailStep? = some c') : Fair x c c' := by
  unfold Cell.mailStep? at hc
  split at hc
  · cases hc
  · rename_i m rest hm
    cases hc
    have hrest : Calm x c { c with mail := rest } := by
      refine .of_eq rfl rfl rfl rfl fun i => ?_
      have sub : (rest.filterMap Mail.sent?).Sublist (c.mail.filterMap Mail.sent?) := by
        rw [hm]
        exact (List.sublist_cons_self m rest).filterMap _
      exact ((List.Sublist.refl _).append sub).filterMap _
    have ho₁ := ho.calm hrest h.kept
    unfold openMail
    split
    · exact (calm_post hm).fair h.kept ho
    · exact hrest.trans_fair ((calm_cancel _ _).fair h.kept ho₁)
    · refine hrest.trans_fair (Calm.fair ?_ h.kept ho₁)
      split
      · exact calm_event _ _ _
      · exact calm_finish _ _ _
    · rename_i id e
      split
      · rename_i p hfind
        obtain rfl : p.id = id := by simpa using List.find?_some hfind
        exact hrest.trans_fair (fair_moveProgram (c := { c with mail := rest }) h.kept ho₁
          (hn.free_told hm) _)
      · exact hrest.fair h.kept ho

theorem fair_programStep? (h : Safe x c) (ho : Owns x c) (hn : Single c)
    (hc : c.programStep? = some c') : Fair x c c' := by
  obtain ⟨p, hmem, hc⟩ := List.exists_of_findSome?_eq_some hc
  split at hc
  · rename_i t ht
    split at hc
    · cases hc
      exact fair_moveProgram h.kept ho (hn.free_idle hmem (by rw [ht]; rfl)) _
    · cases hc
  · rename_i ht
    split at hc
    · cases hc
      exact fair_moveProgram h.kept ho (hn.free_idle hmem (by rw [ht]; rfl)) _
    · cases hc
  · cases hc

theorem fair_expiryStep? (h : Safe x c) (ho : Owns x c) (hc : c.expiryStep? = some c') :
    Fair x c c' := by
  obtain ⟨p, -, hc⟩ := List.exists_of_findSome?_eq_some hc
  split at hc
  · split at hc
    · cases hc
      exact (calm_finish _ _ _).fair h.kept ho
    · cases hc
  · cases hc

/-- Whatever happens by itself keeps the books. -/
theorem fair_next? (h : Safe x c) (ho : Owns x c) (hr : Regular x c) (hcov : Covered x c)
    (hn : Single c) (hlen : 0 < c.lease.length) (hc : c.next? = some c') : Fair x c c' := by
  rcases next?_cases hc with hc | hc | hc | hc | hc | hc
  · exact fair_mailStep? h ho hn hc
  · exact fair_sessionStep? h ho hc
  · exact fair_flightStep? h ho hr hcov hlen hc
  · refine fair_clientStep? h ho (fun i s hi hx hj hf => ?_) hc
    obtain ⟨e, hj⟩ := hj
    exact hcov.settled i s e hi hx hj hf
  · exact fair_expiryStep? h ho hc
  · exact fair_programStep? h ho hn hc

/-- Time passes when there is nothing left to do. -/
theorem owns_setClock (h : Safe x c) (ho : Owns x c) (hc : c.next? = none) (t : Nat) :
    Owns x (c.setClock t) := by
  intro hl i s hi hx
  have hi : c.clients[i]? = some s := hi
  have how := ho hl i s hi hx
  refine ⟨how.booked, how.served.knows, how.served.told, how.served.lists, fun hne a k st hf he => ?_⟩
  -- a yes that has been found is looked at first
  have ht := h.tidy i s hi
  obtain ⟨e, hj⟩ := jeopardy_of_found ht (by simp [hf]) hne
  have hs := step?_of_settled hc hi
  unfold ClientSession.step? at hs
  simp only [Option.orElse_eq_orElse, Option.orElse_eq_or, Option.or_eq_none_iff] at hs
  have hw := hs.1
  have hclosed : s.closed = false := by
    cases hcl : s.closed with
    | false => rfl
    | true => exact absurd (ht.closedIff.1 hcl) hne
  unfold ClientSession.watchStep? ClientSession.searchStep? at hw
  rw [ht.jeopardy e hj] at hw
  simp [hclosed, hf, he] at hw

end Cell

end LockCell
