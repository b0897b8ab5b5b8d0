import LockCell.Proofs.Cell.Order

/-
  LockCell.Proofs.Cell.Replies — a cell stays in order when requests are answered.

  A reply to a client is backed (`Backs`) by the server that it comes from: a new session is
  owed in full, an extended lease from whenever a lease was owed. So the client may rely on
  what it is told (`Safe.deliver`), and whatever the cell does by itself next leaves it in
  order (`Safe.next?`).
-/

namespace LockCell

namespace Cell

variable {W : Client → Prop} {x : Client} {c c' : Cell}

/-! ## Requests are answered -/

/-- What the caller makes of the end of its request. -/
def outcomeOf (f : Flight) (d : Delivery) : Except Error Response :=
  match f.request with
  | some q => d.outcome q.call f.addr
  | none => (d.statusOutcome f.addr).map fun _ => .done

/-- What the answer says is owed: a new session for the full length from any instant before, a
lease that starts over likewise, and an extended lease from whenever a lease was owed. -/
def Backs (c : Cell) (x : Client) (a : Addr) (q : Option Request)
    (r : Except Error Response) : Prop :=
  (∀ y, q = some (.initSession x) → r = .ok y → ∀ st, st ≤ c.now → c.Owed x a st c.lease.length) ∧
    ∀ claimed k, q = some (.keepAlive x claimed) → ClientSession.grant? r = some k → ∀ st l,
      st ≤ c.now → (claimed = none → c.Owed x a st l) → c.Owed x a st k.lease

theorem backs_error (c : Cell) (x : Client) (a : Addr) (q : Option Request) (e : Error) :
    c.Backs x a q (.error e) :=
  ⟨nofun, nofun⟩

theorem Owed.mono {a : Addr} {st l : Nat} (h : c.Owed x a st l) {l' : Nat} (hl : l' ≤ l) :
    c.Owed x a st l' := by
  obtain ⟨host, v, hh, hv, ho⟩ := h
  exact ⟨host, v, hh, hv, ho.mono hl (Nat.le_refl _)⟩

/-- A client session is told. -/
theorem Safe.answer (h : Safe x c) {e : Errand} (he : e ∈ c.errands) {i : Nat} {ask : Ask}
    (hcl : e.caller = .session i ask) {s : ClientSession} (hi : c.clients[i]? = some s)
    {r : Except Error Response} (hb : c.Backs x e.addr e.request r) :
    Safe x ((c.dropFlight e.id).setClient i (s.answer ask r c.now)) := by
  have hf := fades_dropFlight (W := fun _ => False) c e.id
  have h₁ : Safe x (c.dropFlight e.id) := h.fade hf
  have hi₁ : (c.dropFlight e.id).clients[i]? = some s := hf.clients ▸ hi
  have hnow : (c.dropFlight e.id).now = c.now := hf.shifts.now
  have ht := h.tidy i s hi
  have ht₁ : s.Tidy c.now ((c.dropFlight e.id).out i) := hnow ▸ h₁.tidy i s hi₁
  have carry : ∀ {a : Addr} {st l : Nat}, st ≤ c.now → c.Owed x a st l →
      (c.dropFlight e.id).Owed x a st l := fun hst ho => hf.shifts.owed h.kept not_false hst ho
  have stay : Stay c (c.dropFlight e.id) := stay_of_eq hf.clients
  have hout := mem_out_of_errand he hcl
  cases ask with
  | keepAlive g =>
    obtain ⟨hg, ha, hreq⟩ := ht.keepAlives g _ _ hout
    refine h₁.setClient hi₁ (hnow.symm ▸ ClientSession.tidy_keepAlive ht₁ hg r) rfl rfl
      (fun _ hid => Or.inl (ClientSession.of_plays_answer (.keepAlive g) r hid)) ?_
    intro hl hx hcfg a st l hr
    rcases ClientSession.relies_keepAlive hr with hr | ⟨hgen, hrun, hs, k, hk, rfl⟩
    · exact Or.inl hr
    · right
      have hst := ht.le_of_relies hrun
      rw [hf.shifts.lease] at hcfg
      have ho := h.owed (stay.lone hl) i s hi hx hcfg a st s.lease hrun
      rw [hs, ← ha hgen] at ho ⊢
      exact carry hst (hb.2 none k (hx ▸ hreq) hk st s.lease hst fun _ => ho)
  | probe =>
    obtain ⟨held, hreq⟩ := ht.probes _ _ hout
    have hnone : s.phase ≠ .expired → probesOf ((c.dropFlight e.id).out i) = [] := by
      intro hne
      refine probesOf_dropFlight he hcl (Nat.le_trans (ht.probing hne).length_le ?_)
      cases s.probe <;> simp [Probe.asked]
    obtain ⟨hc, hg⟩ := ClientSession.probe_eq s r c.now
    refine h₁.setClient hi₁ (hnow.symm ▸ ClientSession.tidy_probe ht₁ hnone r) hc hg
      (fun _ hid => Or.inl (ClientSession.of_plays_answer .probe r hid)) ?_
    intro _ hx _ a st l hr
    rcases ClientSession.relies_probe hr with hr | ⟨hne, ⟨rest, hp⟩, k, hk, rfl⟩
    · exact Or.inl hr
    · right
      have hst := ht.askedLe a st rest hp
      have hmem := (ht.probing hne).mem (mem_probesOf hout)
      rw [hp] at hmem
      rw [← List.mem_singleton.1 hmem]
      exact carry hst (hb.2 (some held) k (hx ▸ hreq) hk st 0 hst nofun)
  | lock id =>
    exact h₁.keeps hi₁ (hnow.symm ▸ ClientSession.keeps_lockAnswer ht₁ id r) fun _ hid =>
      ClientSession.of_plays_answer (.lock id) r hid

theorem Safe.deliver (h : Safe x c) {f : Flight} (hf : f.errand ∈ c.errands) {d : Delivery}
    (hb : c.Backs x f.addr f.request (outcomeOf f d)) : Safe x (c.deliver f d) := by
  have hfade := fades_dropFlight (W := fun _ => False) c f.id
  have h₁ : Safe x (c.dropFlight f.id) := h.fade hfade
  unfold Cell.deliver
  dsimp only
  split
  · exact h₁.fade (fades_finish _ _ _)
  · rename_i id hcl
    split
    · rename_i r hfind
      have hr := hfade.searches r (List.mem_of_find?_eq_some hfind)
      obtain rfl : r.id = id := by simpa using List.find?_some hfind
      obtain ⟨hid, hbegun⟩ := h.seeks.searchLt r hr
      have stay : Stay c (c.dropFlight f.id) := stay_of_eq hfade.clients
      have hid : r.id < (c.dropFlight f.id).fresh := Nat.lt_of_lt_of_le hid hfade.fresh
      refine h₁.searchOn r.name hid (fun s hs => ?_) (fun s hs => ?_) ?_
      · obtain ⟨hcfg, hbg⟩ := answered_eq_ask hs
        refine ⟨?_, fun hu hx e he hec => ?_⟩
        · rw [hbg, hfade.shifts.now]
          exact hbegun
        · -- the search has one request out, and that has been answered
          rw [errands_dropFlight] at he
          obtain ⟨he, hne⟩ := List.mem_filter.1 he
          have hsame := h.seeks.single (stay.unborn hu) r hr (hcfg ▸ hx) e he f.errand hf hec hcl
          simp only [ne_eq, decide_eq_true_eq] at hne
          exact hne hsame
      · obtain ⟨rfl, y, hy⟩ := answered_eq_found hs
        refine ⟨?_, fun hu hx hle => ?_⟩
        · rw [hfade.shifts.now]
          exact hbegun
        · obtain ⟨ha, hreq⟩ := h.seeks.searched (stay.unborn hu) r hr hx f.errand hf hcl
          have ho := hb.1 y hreq hy r.search.begun hbegun
          rw [hfade.shifts.lease] at hle
          have ha : f.addr = r.search.current := ha
          rw [← ha]
          exact hfade.shifts.owed h.kept not_false hbegun (ho.mono hle)
      · rintro hname s hs p hp e
        have hcfg := h.awaits.searching r hr hname p (hfade.programs.mem hp) e
        rcases hs with hs | hs
        · rw [(answered_eq_ask hs).1, hcfg]
        · rw [(answered_eq_found hs).1, hcfg]
    · exact h₁
  · rename_i i ask hcl
    split
    · rename_i s hi
      have hi : c.clients[i]? = some s := hfade.clients ▸ hi
      have hnow : (c.dropFlight f.id).now = c.now := hfade.shifts.now
      rw [hnow]
      exact h.answer hf hcl hi hb
    · exact h₁
  · refine Safe.fade ?_ (fades_event _ _ rfl)
    split
    · exact h₁.fade (fades_printed _ _)
    · exact h₁

/-! ## Requests at the servers -/

theorem backs_none (c : Cell) (x : Client) (a : Addr) (r : Except Error Response) :
    c.Backs x a none r :=
  ⟨nofun, nofun⟩

/-- A server's reply comes to what it says or to an error. -/
theorem outcome_reply (f : Flight) {q : Request} (hq : f.request = some q)
    (r : Except Error Response) :
    (∃ y, r = .ok y ∧ outcomeOf f (f.deliver (.reply (toReply r))) = .ok y) ∨
      ∃ e, outcomeOf f (f.deliver (.reply (toReply r))) = .error e := by
  unfold outcomeOf Flight.deliver
  rw [hq]
  cases f.back with
  | intact =>
    cases r with
    | ok y => exact Or.inl ⟨y, rfl, rfl⟩
    | error e => exact Or.inr ⟨_, rfl⟩
  | lost => exact Or.inr ⟨_, rfl⟩
  | cut code =>
    right
    simp only [Delivery.outcome]
    split <;> exact ⟨_, rfl⟩

theorem outcome_unsent (f : Flight) : ∃ e, outcomeOf f .unsent = .error e := by
  unfold outcomeOf
  cases f.request <;> exact ⟨_, rfl⟩

theorem outcome_closed (f : Flight) : ∃ e, outcomeOf f .closed = .error e := by
  unfold outcomeOf
  cases f.request <;> exact ⟨_, rfl⟩

/-- A request that comes to an error owes nothing. -/
theorem backs_of_error {c : Cell} {x : Client} {f : Flight} {d : Delivery}
    (h : ∃ e, outcomeOf f d = .error e) : c.Backs x f.addr f.request (outcomeOf f d) := by
  obtain ⟨e, he⟩ := h
  rw [he]
  exact backs_error _ _ _ _ _

theorem Safe.errand_eq (h : Safe x c) {e e' : Errand} (he : e ∈ c.errands) (he' : e' ∈ c.errands)
    (hid : e.id = e'.id) : e = e' :=
  List.inj_on_of_nodup_map h.ids he he' hid

/-- A keep-alive with claims of a client is its session's question of a candidate. -/
theorem Safe.probe_of_claims (h : Safe x c) {e : Errand} (he : e ∈ c.errands) {q : Request}
    (hq : e.request = some q) (hc : q.Claims x) : ∃ (i : Nat) (s : ClientSession),
      c.clients[i]? = some s ∧ s.client = x ∧ e.caller = .session i .probe := by
  obtain ⟨i, ask, hcl⟩ := h.claims e he q hq hc
  have hout := mem_out_of_errand he hcl
  have hlt : i < c.clients.size := h.sentLt _ (mem_out.1 hout)
  have hi : c.clients[i]? = some c.clients[i] := Array.getElem?_eq_getElem hlt
  have ht := h.tidy i _ hi
  cases ask with
  | keepAlive g =>
    obtain ⟨-, -, hreq⟩ := ht.keepAlives g _ _ hout
    rw [hq] at hreq
    cases hreq
    exact hc.elim
  | probe =>
    obtain ⟨held, hreq⟩ := ht.probes _ _ hout
    rw [hq] at hreq
    cases hreq
    exact ⟨i, _, hi, hc, hcl⟩
  | lock id =>
    obtain ⟨op, hreq⟩ := ht.locks id _ _ hout
    rw [hq] at hreq
    cases hreq
    cases op <;> exact hc.elim

/-- A server works on a request that has reached it. A client that asks for a refresh relies
on nothing meanwhile. -/
theorem Safe.serve (h : Safe x c) {e : Errand} (he : e ∈ c.errands) {q : Request}
    (hq : e.request = some q) {i : Nat} {v v' : Server} {k' : Cluster}
    (hv : c.servers[i]? = some v) (hm : Server.Moves q.Claims c.now (v, c.cluster) (v', k')) :
    Safe x (c.setServer i v' k') := by
  have hf : Fades q.Claims c (c.setServer i v' k') := fades_setServer hv hm
  by_cases hc : q.Claims x
  · refine h.of (hf.shifts.carries h.kept h.leased) hf.clients hf.errands hf.mail hf.told hf.waiters
      hf.searches hf.programs h.honest hf.fresh ?_
    intro hl j t hj hx a st l hr
    obtain ⟨i, s, hi, hsx, hcl⟩ := h.probe_of_claims he hq hc
    have hij := hl i j s t hi hj hsx hx
    subst hij
    rw [hi] at hj
    obtain rfl := Option.some.inj hj
    have ht := h.tidy i s hi
    by_cases hp : s.phase = .expired
    · exact absurd hr (ClientSession.not_relies_of_expired hp a st l)
    · have hmem := (ht.probing hp).mem (mem_probesOf (mem_out_of_errand he hcl))
      exact absurd hr (ht.not_relies_of_asked (List.ne_nil_of_mem hmem) a st l)
  · exact h.fades hf hc

/-- What a server answers at once is owed by it. -/
theorem Safe.backs_serve (h : Safe x c) {a : Addr} {host : Host} (hh : c.hosts[a]? = some host)
    {v : Server} (hv : c.servers[host.server]? = some v) {q : Request} {r : Except Error Response}
    {v' : Server} {k' : Cluster} (hs : v.serve c.cluster c.now q = (.done r, v', k'))
    {r' : Except Error Response} (hr : (∃ y, r = .ok y ∧ r' = .ok y) ∨ ∃ e, r' = .error e) :
    (c.setServer host.server v' k').Backs x a (some q) r' := by
  obtain ⟨y, rfl, rfl⟩ | ⟨e, rfl⟩ := hr
  · have howed : ∀ {st l : Nat}, v'.Owes x st l c.now →
        (c.setServer host.server v' k').Owed x a st l :=
      fun ho => ⟨host, v', hh, getElem?_setIfInBounds_self hv v', ho⟩
    have h₁ : (v.serve c.cluster c.now q).1 = .done (.ok y) := by rw [hs]
    have h₂ : (v.serve c.cluster c.now q).2.1 = v' := by rw [hs]
    refine ⟨fun z hq _ st hst => ?_, fun claimed k hq hk st l hst _ => ?_⟩
    · cases hq
      rw [show (c.setServer host.server v' k').lease = v.lease from (h.leased _ v hv).symm]
      exact howed (h₂ ▸ Server.owes_of_initSession h₁ hst)
    · cases hq
      obtain ⟨hy, he⟩ := ClientSession.grant?_eq_some_iff.1 hk
      cases claimed with
      | none => exact absurd h₁ (Server.done_serve_keepAlive y)
      | some held =>
        have hy : y = .kept k := by
          unfold ClientSession.keptOf at hy
          split at hy <;> cases hy
          rename_i hy'
          exact Except.ok.inj hy'
        subst hy
        exact howed (h₂ ▸ Server.owes_of_claims (h.kept _ v hv) h₁ he hst)
  · exact backs_error _ _ _ _ _

/-- A keep-alive waits at the server that answers where it went, in a session of its client. -/
theorem Safe.wait (h : Safe x c) {e : Errand} (he : e ∈ c.errands) {w : Waiter}
    (hw : w.holder = .flight e.id) {y : Client} (hy : e.request = some (.keepAlive y none))
    (hs : c.SeatedAt e.addr w.server w.session y) :
    Safe x { c with waiters := c.waiters ++ [w] } := by
  refine ⟨h.kept, h.leased, h.ids, h.idLt, ?_, ?_, h.tidy, h.sentLt, h.claims, h.honest,
    h.seeks.of_eq (stay_of_eq rfl) rfl rfl rfl rfl, h.awaits.of_eq rfl rfl rfl rfl rfl, h.owed⟩
  · intro u hu id hid
    rcases List.mem_append.1 hu with hu | hu
    · exact h.waiterLt u hu id hid
    · rw [List.mem_singleton.1 hu, hw] at hid
      cases hid
      exact h.idLt e he
  · intro u hu e' he' hid
    rcases List.mem_append.1 hu with hu | hu
    · exact h.parked u hu e' he' hid
    · cases List.mem_singleton.1 hu
      rw [hw] at hid
      obtain rfl := h.errand_eq he he' (Holder.flight.inj hid)
      exact ⟨y, hy, hs⟩

theorem Safe.reach (h : Safe x c) {f : Flight} (hf : f.errand ∈ c.errands) :
    Safe x (c.reach f) := by
  unfold Cell.reach
  dsimp only
  split
  · exact h.deliver hf (backs_of_error (outcome_unsent f))
  · rename_i i v hs
    obtain ⟨host, hh, -, rfl, hv⟩ := server_of_host hs
    split
    · rename_i hq
      refine h.deliver hf ?_
      rw [hq]
      exact backs_none _ _ _ _
    · rename_i q hq
      have hm : Server.Moves q.Claims c.now (v, c.cluster) (v.serve c.cluster c.now q).2 :=
        Server.moves_serve (h.kept _ v hv) q
      rcases hs : v.serve c.cluster c.now q with ⟨r | ⟨j, t⟩, v', k'⟩
      · rw [hs] at hm
        have h₁ := h.serve hf hq hv hm
        refine h₁.deliver hf ?_
        rw [hq]
        exact h.backs_serve hh hv hs (outcome_reply f hq r)
      · rw [hs] at hm
        have h₁ := h.serve hf hq hv hm
        -- it parks in its client's session
        have hp : (v.serve c.cluster c.now q).1 = .parked j t := by rw [hs]
        obtain ⟨y, rfl⟩ := Server.request_of_parked hp
        have hseat : v'.Seats j y := by
          have hseat := Server.seats_of_parked (h.kept _ v hv) hp
          rw [hs] at hseat
          exact hseat
        have hplace : ∀ g ∈ (c.setServer host.server v' k').flights, g.id = f.id →
            g.errand = f.errand := fun g hg hid =>
          h.errand_eq (List.mem_map_of_mem hg) hf hid
        have h₂ := h₁.fade (fades_setFlight (f := { f with place := .parked }) hplace)
        refine h₂.wait (e := f.errand) ?_ rfl hq ⟨host, v', hh, rfl, ?_, hseat⟩
        · rw [errands_setFlight (f := { f with place := .parked }) hplace]
          exact hf
        · exact getElem?_setIfInBounds_self hv v'

theorem spring_eq_some {a : Addr} {r : Route} {l : List Trap} {m : Mishap} {l' : List Trap}
    (h : Trap.spring a r l = some (m, l')) :
    (∃ t ∈ l, t.mishap = m) ∧ ∀ t ∈ l', ∃ u ∈ l, u.mishap = t.mishap := by
  induction l generalizing l' with
  | nil => cases h
  | cons t rest ih =>
    unfold Trap.spring at h
    split at h
    · cases h
      refine ⟨⟨t, List.mem_cons_self, rfl⟩, fun u hu => ?_⟩
      rcases List.mem_cons.1 hu with rfl | hu
      · exact ⟨t, List.mem_cons_self, rfl⟩
      · exact ⟨u, List.mem_cons_of_mem _ hu, rfl⟩
    · obtain ⟨⟨m', l''⟩, hs, e⟩ := Option.map_eq_some_iff.1 h
      cases e
      obtain ⟨⟨u, hu, hm⟩, hl⟩ := ih hs
      refine ⟨⟨u, List.mem_cons_of_mem _ hu, hm⟩, fun w hw => ?_⟩
      rcases List.mem_cons.1 hw with rfl | hw
      · exact ⟨w, List.mem_cons_self, rfl⟩
      · obtain ⟨z, hz, e⟩ := hl w hw
        exact ⟨z, List.mem_cons_of_mem _ hz, e⟩

theorem Safe.arrive (h : Safe x c) {f : Flight} (hf : f.errand ∈ c.errands) :
    Safe x (c.arrive f) := by
  unfold Cell.arrive
  split
  · exact h.reach hf
  · rename_i m traps hs
    obtain ⟨⟨t, ht, hm⟩, htraps⟩ := spring_eq_some hs
    have h₁ : Safe x { c with traps } := h.fade (fades_traps htraps)
    have hplace : ∀ g ∈ c.flights, g.id = f.id → g.errand = f.errand := fun g hg hid =>
      h.errand_eq (List.mem_map_of_mem hg) hf hid
    cases m with
    | refuse | reset => exact h₁.deliver hf (backs_of_error (outcome_unsent f))
    | drop => exact h₁.deliver hf (backs_of_error (outcome_closed f))
    | dropAfter => exact h₁.reach (f := { f with back := .lost }) hf
    | cutBody code => exact h₁.reach (f := { f with back := .cut code }) hf
    | reply code body => exact absurd hm (h.honest t ht code body)
    | hang =>
      exact h₁.fade (fades_setFlight (c := { c with traps })
        (f := { f with place := .hanging }) hplace)
    | delay span =>
      exact h₁.fade (fades_setFlight (c := { c with traps })
        (f := { f with place := .delayed (c.now + span) }) hplace)

theorem Safe.flightStep? (h : Safe x c) (hc : c.flightStep? = some c') : Safe x c' := by
  obtain ⟨f, hf, hc⟩ := List.exists_of_findSome?_eq_some hc
  have hf : f.errand ∈ c.errands := List.mem_map_of_mem hf
  split at hc
  · split at hc
    · cases hc
      exact h.arrive hf
    · cases hc
  · split at hc
    · cases hc
      exact h.reach hf
    · cases hc
  · cases hc
  · cases hc

/-! ## What servers do by themselves -/

/-- A parked keep-alive is told what is owed. -/
theorem Safe.release (h : Safe x c) {w : Waiter} {r : Except Error KeepAlive}
    (hb : ∀ e ∈ c.errands, w.holder = .flight e.id → ∀ r',
      (∃ y, r.map Response.kept = .ok y ∧ r' = .ok y) ∨ (∃ e, r' = .error e) →
      c.Backs x e.addr e.request r') : Safe x (c.release w r) := by
  have h₁ : Safe x { c with waiters := c.waiters.filter (·.holder ≠ w.holder) } :=
    h.fade (fades_waiters fun u hu => (List.mem_filter.1 hu).1)
  unfold Cell.release
  dsimp only
  split
  · exact h₁.fade (fades_finish _ _ _)
  · exact h₁.fade (fades_finish _ _ _)
  · rename_i id hw
    split
    · rename_i f hfind
      have hf : f.errand ∈ c.errands := List.mem_map_of_mem (List.mem_of_find?_eq_some hfind)
      obtain rfl : f.id = id := by simpa using List.find?_some hfind
      refine h₁.deliver hf ?_
      cases hq : f.request with
      | none => exact backs_none _ _ _ _
      | some q =>
        rw [← hq]
        exact hb f.errand hf hw _ (outcome_reply f hq _)
    · exact h₁

/-- What a session tells a parked keep-alive is owed by its server. -/
theorem Safe.backs_answer? (h : Safe x c) {i j t : Nat} {v v' : Server} {r : Except Error KeepAlive}
    (hv : c.servers[i]? = some v) (ha : v.answer? c.cluster j = some (t, r, v')) {e : Errand}
    {y : Client} (hy : e.request = some (.keepAlive y none)) (hs : c.SeatedAt e.addr i j y)
    {r' : Except Error Response}
    (hr : (∃ z, r.map Response.kept = .ok z ∧ r' = .ok z) ∨ ∃ e, r' = .error e) :
    (c.setServer i v' c.cluster).Backs x e.addr e.request r' := by
  obtain ⟨z, hz, rfl⟩ | ⟨e, rfl⟩ := hr
  · obtain ⟨host, u, hh, hhost, hu, hseat⟩ := hs
    rw [hv] at hu
    cases hu
    rw [hy]
    refine ⟨nofun, fun claimed k hq hk st l _ ho => ?_⟩
    cases hq
    obtain ⟨hk, he⟩ := ClientSession.grant?_eq_some_iff.1 hk
    have hrk : r = .ok k := by
      rcases r with e | a
      · cases hz
      · cases hz
        cases hk
        rfl
    subst hrk
    have hm : Server.Moves (fun _ => False) c.now (v, c.cluster) (v', c.cluster) :=
      Server.moves_answer? ha
    obtain ⟨host', v'', hh', hv'', howes⟩ := ho rfl
    have hh' : c.hosts[e.addr]? = some host' := hh'
    rw [hh] at hh'
    cases hh'
    rw [hhost] at hv''
    have hv' : (c.setServer i v' c.cluster).servers[i]? = some v' :=
      getElem?_setIfInBounds_self hv v'
    rw [hv'] at hv''
    cases hv''
    refine ⟨host, v', hh, hhost ▸ hv', ?_⟩
    exact Server.owes_of_answer? (hm.kept (h.kept i v hv)) ha he hseat howes
  · exact backs_error _ _ _ _ _

theorem Safe.sessionStep? (h : Safe x c) (hc : c.sessionStep? = some c') : Safe x c' := by
  obtain ⟨i, v, j, hv, hc⟩ := exists_sessionStepAt? hc
  unfold sessionStepAt? at hc
  split at hc
  · rename_i hl
    cases hc
    exact h.fade (fades_setServer hv (Server.moves_look? hl))
  · split at hc
    · cases hc
    · rename_i t r v' ha
      have h₁ : Safe x (c.setServer i v' c.cluster) :=
        h.fade (fades_setServer hv (Server.moves_answer? ha))
      dsimp only at hc
      split at hc
      · rename_i w hw
        cases hc
        have hmem := List.mem_of_find?_eq_some hw
        have hwp := List.find?_some hw
        simp only [decide_eq_true_eq] at hwp
        obtain ⟨rfl, rfl, -⟩ := hwp
        refine h₁.release fun e he hid r' hr => ?_
        obtain ⟨y, hy, hseat⟩ := h.parked w hmem e he hid
        exact h.backs_answer? hv ha hy hseat hr
      · cases hc
        exact h₁

/-! ## What happens by itself -/

theorem Safe.expiryStep? (h : Safe x c) (hc : c.expiryStep? = some c') : Safe x c' := by
  obtain ⟨p, -, hc⟩ := List.exists_of_findSome?_eq_some hc
  split at hc
  · split at hc
    · cases hc
      exact h.fade (fades_finish _ _ _)
    · cases hc
  · cases hc

theorem Safe.programStep? (h : Safe x c) (hc : c.programStep? = some c') : Safe x c' := by
  obtain ⟨p, hp, hc⟩ := List.exists_of_findSome?_eq_some hc
  split at hc
  · split at hc
    · cases hc
      exact h.moveProgram hp nofun
    · cases hc
  · split at hc
    · cases hc
      exact h.moveProgram hp nofun
    · cases hc
  · cases hc

theorem Safe.next? (h : Safe x c) (hc : c.next? = some c') : Safe x c' := by
  rcases next?_cases hc with hc | hc | hc | hc | hc | hc
  · exact h.mailStep? hc
  · exact h.sessionStep? hc
  · exact h.flightStep? hc
  · exact h.clientStep? hc
  · exact h.expiryStep? hc
  · exact h.programStep? hc

end Cell

end LockCell
