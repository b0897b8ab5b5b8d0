import Mathlib.Data.List.Nodup
import LockCell.Proofs.Cell.Searches
import LockCell.Proofs.Cell.Turns

/-
  LockCell.Proofs.Cell.Order — a cell in order for a client.

  In a cell that is in order (`Safe`) the network carries what the client sessions have sent,
  parked keep-alives wait where they went, a search has one request out, and whatever a
  client relies on is owed to it by the server at that address. This is kept when requests
  fade (`Safe.fades`), when a client session takes a step (`Safe.setClient`), when a request
  is sent (`Safe.launch`), and when a search has found a server (`Safe.begin`).
-/

namespace LockCell

namespace Cell

variable {W : Client → Prop} {x : Client} {c c' : Cell}

/-- The server that answers at an address owes the client a lease. -/
def Owed (c : Cell) (x : Client) (a : Addr) (st l : Nat) : Prop :=
  ∃ h v, c.hosts[a]? = some h ∧ c.servers[h.server]? = some v ∧ v.Owes x st l c.now

/-- A session of the client, at the server that answers at the address. -/
def SeatedAt (c : Cell) (a : Addr) (i j : Nat) (x : Client) : Prop :=
  ∃ h v, c.hosts[a]? = some h ∧ h.server = i ∧ c.servers[i]? = some v ∧ v.Seats j x

def Leased (c : Cell) : Prop :=
  ∀ (i : Nat) (v : Server), c.servers[i]? = some v → v.lease = c.lease

/-- The servers stay in their places, with their sessions. -/
structure Carries (c c' : Cell) : Prop where
  now : c.now ≤ c'.now
  lease : c'.lease = c.lease
  kept : c'.Kept
  leased : c'.Leased
  seated : ∀ a i j y, c.SeatedAt a i j y → c'.SeatedAt a i j y

/-- What holds of a server through its moves holds of it through shifts. -/
theorem Shifts.server {Q : Server → Prop} (hs : Shifts W c c')
    (hq : ∀ a b, Server.Move W c.now a b → Q a.1 → Q b.1) {i : Nat}
    (h : ∃ v, c.servers[i]? = some v ∧ Q v) : ∃ v, c'.servers[i]? = some v ∧ Q v := by
  have keep : ∀ a b, Relation.ReflTransGen (Shift W c.now) a b →
      (∃ v, a.1[i]? = some v ∧ Q v) → ∃ v, b.1[i]? = some v ∧ Q v := by
    intro a b hp ha
    induction hp with
    | refl => exact ha
    | tail _ hs ih =>
      cases hs with
      | @move vs k j w z hj hm =>
        obtain ⟨v, hv, hqv⟩ := ih
        by_cases e : i = j
        · subst e
          rw [show vs[i]? = some v from hv] at hj
          cases hj
          exact ⟨z.1, getElem?_setIfInBounds_self hv z.1, hq _ _ hm hqv⟩
        · refine ⟨v, ?_, hqv⟩
          rw [Array.getElem?_setIfInBounds_ne (Ne.symm e)]
          exact hv
  exact keep _ _ hs.path h

theorem Shifts.carries (hs : Shifts W c c') (hk : c.Kept) (hl : c.Leased) : Carries c c' where
  now := Nat.le_of_eq hs.now.symm
  lease := hs.lease
  kept := hs.kept hk
  leased i v hv := by
    rw [hs.lease]
    exact hs.invariant (Q := fun _ v => v.lease = c.lease)
      (fun _ _ _ hm hv => hm.lease_eq.trans hv) hl i v hv
  seated a i j y h := by
    obtain ⟨host, v, hh, hi, hv, hy⟩ := h
    obtain ⟨w, hw, hwy⟩ := hs.server (Q := fun v => v.Seats j y) (fun _ _ hm hv => hm.seats hv)
      ⟨v, hv, hy⟩
    exact ⟨host, w, hs.hosts ▸ hh, hi, hw, hwy⟩

/-- What is owed stays owed while nobody refreshes or ends the client's sessions. -/
theorem Shifts.owed (hs : Shifts W c c') (hk : c.Kept) (hw : ¬ W x) {a : Addr} {st l : Nat}
    (hst : st ≤ c.now) (h : c.Owed x a st l) : c'.Owed x a st l := by
  obtain ⟨host, v, hh, hv, ho⟩ := h
  obtain ⟨w, hv', hw', how⟩ := hs.server (Q := fun v => v.Kept ∧ v.Owes x st l c.now)
    (fun _ _ hm hv => ⟨hm.kept hv.1, hm.owes hv.1 hw hst hv.2⟩) ⟨v, hv, hk _ v hv, ho⟩
  refine ⟨host, w, hs.hosts ▸ hh, hv', ?_⟩
  rw [hs.now]
  exact how

/-- The cell is in order for the client `x`: the network carries what the clients have sent,
and a lease that the client relies on is owed to it, if it is the only one of its name. -/
structure Safe (x : Client) (c : Cell) : Prop where
  kept : c.Kept
  leased : c.Leased
  ids : (c.errands.map Errand.id).Nodup
  idLt : ∀ e ∈ c.errands, e.id < c.fresh
  waiterLt : ∀ w ∈ c.waiters, ∀ id, w.holder = .flight id → id < c.fresh
  parked : ∀ w ∈ c.waiters, ∀ e ∈ c.errands, w.holder = .flight e.id →
    ∃ y, e.request = some (.keepAlive y none) ∧ c.SeatedAt e.addr w.server w.session y
  tidy : ∀ (i : Nat) (s : ClientSession), c.clients[i]? = some s → s.Tidy c.now (c.out i)
  sentLt : ∀ y ∈ c.sent, y.1 < c.clients.size
  claims : ∀ e ∈ c.errands, ∀ q, e.request = some q → q.Claims x →
    ∃ i ask, e.caller = .session i ask
  honest : ∀ t ∈ c.traps, ∀ code body, t.mishap ≠ .reply code body
  seeks : Seeks x c
  awaits : Awaits x c
  owed : c.Lone x → ∀ (i : Nat) (s : ClientSession), c.clients[i]? = some s → s.client = x →
    s.config.length ≤ c.lease.length → ∀ a st l, s.Relies a st l → c.Owed x a st l

/-- Requests fade, and what the client relies on stays owed. -/
theorem Safe.of (h : Safe x c) (hc : Carries c c') (hcl : c'.clients = c.clients)
    (he : c'.errands.Sublist c.errands)
    (hm : (c'.mail.filterMap Mail.sent?).Sublist (c.mail.filterMap Mail.sent?))
    (htold : ∀ m ∈ c'.mail, ∀ id, m.answers? = some id → ∃ n ∈ c.mail, n.answers? = some id)
    (hw : ∀ w ∈ c'.waiters, ∀ id, w.holder = .flight id → w ∈ c.waiters)
    (hs : ∀ r ∈ c'.searches, r ∈ c.searches) (hp : c'.programs.Sublist c.programs)
    (ht : ∀ t ∈ c'.traps, ∀ code body, t.mishap ≠ .reply code body) (hn : c.fresh ≤ c'.fresh)
    (ho : c.Lone x → ∀ (i : Nat) (s : ClientSession), c.clients[i]? = some s → s.client = x →
      ∀ a st l, s.Relies a st l → c.Owed x a st l → c'.Owed x a st l) : Safe x c' := by
  have hsent : c'.sent.Sublist c.sent := (he.filterMap _).append hm
  have stay : Stay c c' := stay_of_eq hcl
  have plays : ∀ id, c'.Plays id → c.Plays id := by
    intro id hq
    rcases hq with ⟨i, s, hi, hs⟩ | ⟨m, hm, ha⟩
    · exact Or.inl ⟨i, s, hcl ▸ hi, hs⟩
    · exact Or.inr (htold m hm id ha)
  refine ⟨hc.kept, hc.leased, ?_, ?_, ?_, ?_, ?_, ?_, ?_, ht, ?_, ?_, ?_⟩
  · exact h.ids.sublist (he.map _)
  · exact fun e hm => Nat.lt_of_lt_of_le (h.idLt e (he.mem hm)) hn
  · exact fun w hw' id hid => Nat.lt_of_lt_of_le (h.waiterLt w (hw w hw' id hid) id hid) hn
  · intro w hw' e hm hid
    obtain ⟨y, hy, hseat⟩ := h.parked w (hw w hw' _ hid) e (he.mem hm) hid
    exact ⟨y, hy, hc.seated _ _ _ _ hseat⟩
  · intro i s hi
    rw [hcl] at hi
    exact (h.tidy i s hi).mono hc.now (hsent.filterMap _)
  · intro y hy
    rw [hcl]
    exact h.sentLt y (hsent.mem hy)
  · exact fun e hm => h.claims e (he.mem hm)
  · exact h.seeks.of stay hc.now (fun e hm => he.mem hm) hs hn
  · exact h.awaits.of stay hp (fun r hr => Or.inl (hs r hr)) plays hn
  · intro hl i s hi hx hcfg a st l hr
    rw [hcl] at hi
    rw [hc.lease] at hcfg
    exact ho (stay.lone hl) i s hi hx a st l hr (h.owed (stay.lone hl) i s hi hx hcfg a st l hr)

/-- Whatever only lets requests fade, without a refresh or an early end for the client. -/
theorem Safe.fades (h : Safe x c) (hf : Fades W c c') (hw : ¬ W x) : Safe x c' := by
  refine h.of (hf.shifts.carries h.kept h.leased) hf.clients hf.errands hf.mail hf.told
    hf.waiters hf.searches hf.programs ?_ hf.fresh ?_
  · intro t ht code body
    obtain ⟨u, hu, e⟩ := hf.traps t ht
    exact e ▸ h.honest u hu code body
  · intro _ i s hi _ a st l hr
    exact hf.shifts.owed h.kept hw ((h.tidy i s hi).le_of_relies hr)

theorem Safe.fade (h : Safe x c) (hf : Fades (fun _ => False) c c') : Safe x c' :=
  h.fades hf not_false

/-! ## Clients take steps -/

/-- A client session takes a step; what it relies on from then on is owed to it. -/
theorem Safe.setClient (h : Safe x c) {i : Nat} {s : ClientSession} (hi : c.clients[i]? = some s)
    {st : ClientSession.Step} (ht : st.1.Tidy c.now (c.out i ++ sentOf st.2))
    (hc : st.1.client = s.client) (hg : st.1.config = s.config)
    (hp : ∀ id, st.Plays id → s.Plays id ∨ (id < c.fresh ∧ (c.Unborn x → ∀ p ∈ c.programs,
      p.program.config.client = x → p.id ≠ id)))
    (hr : c.Lone x → s.client = x → s.config.length ≤ c.lease.length → ∀ a t l,
      st.1.Relies a t l → s.Relies a t l ∨ c.Owed x a t l) : Safe x (c.setClient i st) := by
  have hget := clients_setClient hi st
  have hlt : i < c.clients.size := (Array.getElem?_eq_some_iff.1 hi).1
  have stay := stay_setClient hi hc
  refine ⟨h.kept, h.leased, h.ids, h.idLt, h.waiterLt, h.parked, ?_, ?_, h.claims, h.honest,
    h.seeks.of_eq stay rfl rfl rfl rfl, h.awaits.setClient hi hc hp, ?_⟩
  · intro j t hj
    rw [hget] at hj
    split at hj
    · rename_i e
      cases hj
      rw [e, out_setClient_self]
      exact ht
    · rename_i e
      rw [out_setClient_other c e]
      exact h.tidy j t hj
  · intro y hy
    have hsize : (c.setClient i st).clients.size = c.clients.size := Array.size_setIfInBounds
    rw [hsize]
    rw [sent_setClient] at hy
    rcases List.mem_append.1 hy with hy | hy
    · exact h.sentLt y hy
    · obtain ⟨z, -, rfl⟩ := List.mem_map.1 hy
      exact hlt
  · intro hl j t hj hx hcfg a u l hrel
    rw [hget] at hj
    split at hj
    · cases hj
      rw [hc] at hx
      rw [hg] at hcfg
      rcases hr (stay.lone hl) hx hcfg a u l hrel with hrel | ho
      · exact h.owed (stay.lone hl) i s hi hx hcfg a u l hrel
      · exact ho
    · exact h.owed (stay.lone hl) j t hj hx hcfg a u l hrel

/-- A step that makes a client rely on nothing new. -/
theorem Safe.keeps (h : Safe x c) {i : Nat} {s : ClientSession} (hi : c.clients[i]? = some s)
    {st : ClientSession.Step} (hk : s.Keeps c.now (c.out i) st)
    (hp : ∀ id, st.Plays id → s.Plays id) : Safe x (c.setClient i st) :=
  h.setClient hi hk.tidy hk.client hk.config (fun id hid => Or.inl (hp id hid))
    fun _ _ _ a t l hr => Or.inl (hk.relies a t l hr)

theorem Safe.closeClient (h : Safe x c) {i : Nat} {s : ClientSession}
    (hi : c.clients[i]? = some s) : Safe x (c.setClient i (s.close, [])) :=
  h.keeps hi (ClientSession.keeps_close (h.tidy i s hi)) fun _ => ClientSession.of_plays (Nat.le_refl _)

/-- A lock call begins that is none of a program that waits for its first session. -/
theorem Safe.callClient (h : Safe x c) {i : Nat} {s : ClientSession} (hi : c.clients[i]? = some s)
    {id : Nat} (op : LockOp) (hid : id < c.fresh)
    (hp : c.Unborn x → ∀ p ∈ c.programs, p.program.config.client = x → p.id ≠ id) :
    Safe x (c.setClient i (s.call id op)) := by
  have hk := ClientSession.keeps_call (h.tidy i s hi) id op
  refine h.setClient hi hk.tidy hk.client hk.config (fun j hj => ?_)
    fun _ _ _ a t l hr => Or.inl (hk.relies a t l hr)
  rcases ClientSession.plays_call op hj with hj | rfl
  · exact Or.inl hj
  · exact Or.inr ⟨hid, hp⟩

theorem Safe.clientStep? (h : Safe x c) (hc : c.clientStep? = some c') : Safe x c' := by
  obtain ⟨i, -, hc⟩ := List.exists_of_findSome?_eq_some hc
  obtain ⟨s, hi, hc⟩ := Option.bind_eq_some_iff.1 hc
  obtain ⟨st, hst, hc⟩ := Option.bind_eq_some_iff.1 hc
  cases hc
  exact h.keeps hi (ClientSession.keeps_step? (h.tidy i s hi) hst) fun _ =>
    ClientSession.of_plays_step? hst

/-! ## Requests are sent -/

/-- A request goes out: one that was in the mail, or one that no client session sends. A
search sends one at a time. -/
theorem Safe.launch (h : Safe x c) {f : Flight} (hid : f.id = c.fresh) {l : List Mail}
    {rs : List SearchRun} (n : Nat)
    (hm : f.errand.sent?.toList ++ l.filterMap Mail.sent? = c.mail.filterMap Mail.sent?)
    (htold : ∀ m ∈ l, ∀ id, m.answers? = some id → ∃ n ∈ c.mail, n.answers? = some id)
    (hq : ∀ q, f.request = some q → q.Claims x → ∃ i ask, f.caller = .session i ask)
    (hf : ∀ id, f.caller = .search id → id < c.fresh)
    (hr : ∀ r ∈ rs, r.id < c.fresh ∧ r.search.begun ≤ c.now)
    (hp : ∀ r ∈ rs, r ∈ c.searches ∨ (r.name = none → ∀ p ∈ c.programs, p.id = r.id →
      r.search.config.client = p.program.config.client))
    (hs : c.Unborn x → ∀ r ∈ rs, r.search.config.client = x →
      (r ∈ c.searches ∧ f.caller ≠ .search r.id) ∨ ((∀ e ∈ c.errands, e.caller ≠ .search r.id) ∧
        f.addr = r.search.current ∧ f.request = some (.initSession x))) :
    Safe x (c.launched f l rs n) := by
  have he := errands_launched c f l rs n
  have hsent : (c.launched f l rs n).sent = c.sent := by
    unfold sent
    rw [he, List.filterMap_append, List.append_assoc, ← hm]
    rfl
  refine ⟨h.kept, h.leased, ?_, ?_, ?_, ?_, ?_, ?_, ?_, h.honest, h.seeks.launch hf hr hs, ?_,
    h.owed⟩
  · rw [he, List.map_append, List.nodup_append]
    refine ⟨h.ids, by simp, ?_⟩
    intro a ha b hb
    obtain ⟨e, hm, rfl⟩ := List.mem_map.1 ha
    have hlt := h.idLt e hm
    have hb : b = f.errand.id := by simpa using hb
    have hid : f.errand.id = c.fresh := hid
    omega
  · intro e hm
    show e.id < c.fresh + 1
    rcases mem_errands_launched hm with hm | rfl
    · exact Nat.lt_succ_of_lt (h.idLt e hm)
    · exact hid ▸ Nat.lt_succ_self _
  · exact fun w hw id hid => Nat.lt_succ_of_lt (h.waiterLt w hw id hid)
  · intro w hw e hm hh
    rcases mem_errands_launched hm with hm | rfl
    · exact h.parked w hw e hm hh
    · have hlt := h.waiterLt w hw _ hh
      have hid : f.errand.id = c.fresh := hid
      omega
  · intro i s hi
    unfold out
    rw [hsent]
    exact h.tidy i s hi
  · rw [hsent]
    exact h.sentLt
  · intro e hm
    rcases mem_errands_launched hm with hm | rfl
    · exact h.claims e hm
    · exact hq
  · refine h.awaits.of (stay_of_eq rfl) (.refl _) hp ?_ (Nat.le_succ _)
    intro j hz
    rcases hz with hj | ⟨m, hm, ha⟩
    · exact Or.inl hj
    · exact Or.inr (htold m hm j ha)

/-- A request that neither a client session nor a search sends. -/
theorem Safe.send (h : Safe x c) {y : Caller} (hy : ∀ i ask, y ≠ .session i ask)
    (hy' : ∀ id, y ≠ .search id) (a : Addr) {q : Option Request}
    (hq : ∀ r, q = some r → ¬ r.Claims x) : Safe x (c.send y a q) := by
  refine h.launch (f := ⟨c.fresh, y, a, q, .travelling (c.now + c.latency), .intact⟩) rfl
    (c.requests + 1) ?_ (fun m hm _ ha => ⟨m, hm, ha⟩) ?_ ?_ h.seeks.searchLt
    (fun r hr => Or.inl hr) ?_
  · cases y with
    | session i ask => exact absurd rfl (hy i ask)
    | call | search | program => rfl
  · exact fun r hr hc => absurd hc (hq r hr)
  · exact fun id hid => absurd hid (hy' id)
  · exact fun _ r hr _ => Or.inl ⟨hr, hy' r.id⟩

/-- The first of the mail is sent. -/
theorem Safe.post (h : Safe x c) {i : Nat} {ask : Ask} {a : Addr} {q : Request} {rest : List Mail}
    (hm : c.mail = .effect i (.send ask a q) :: rest) :
    Safe x ({ c with mail := rest }.send (.session i ask) a (some q)) := by
  refine h.launch (f := ⟨c.fresh, .session i ask, a, some q, .travelling (c.now + c.latency),
    .intact⟩) rfl (c.requests + 1) ?_ ?_ ?_ ?_ h.seeks.searchLt (fun r hr => Or.inl hr) ?_
  · rw [hm]
    rfl
  · intro m hr id ha
    exact ⟨m, hm ▸ List.mem_cons_of_mem _ hr, ha⟩
  · exact fun _ _ _ => ⟨i, ask, rfl⟩
  · intro id hid
    cases hid
  · intro _ r hr _
    refine Or.inl ⟨hr, ?_⟩
    intro hid
    cases hid

/-! ## Searches -/

theorem Safe.out_eq_nil (h : Safe x c) {i : Nat} (hi : c.clients.size ≤ i) : c.out i = [] := by
  refine List.eq_nil_iff_forall_not_mem.2 fun y hy => ?_
  have hlt : i < c.clients.size := h.sentLt _ (mem_out.1 hy)
  omega

/-- A client session begins, with a lease that is owed to it. -/
theorem Safe.begin (h : Safe x c) {s : Search} (hb : s.begun ≤ c.now)
    (ho : c.Unborn x → s.config.client = x → s.config.lease.length ≤ c.lease.length →
      c.Owed x s.current s.begun s.config.lease.length) :
    Safe x { c with clients := c.clients.push (.begin s.config s.current s.begun c.now) } := by
  have hcalls : (ClientSession.begin s.config s.current s.begun c.now).calls = [] := rfl
  generalize hn : ClientSession.begin s.config s.current s.begun c.now = n at hcalls ⊢
  have hget : ∀ j, (c.clients.push n)[j]? = if j = c.clients.size then some n else c.clients[j]? :=
    fun j => Array.getElem?_push
  have stay := stay_push c n
  refine ⟨h.kept, h.leased, h.ids, h.idLt, h.waiterLt, h.parked, ?_, ?_, h.claims, h.honest,
    h.seeks.of_eq stay rfl rfl rfl rfl, h.awaits.begin hcalls, ?_⟩
  · intro j t hj
    have hj : (c.clients.push n)[j]? = some t := hj
    rw [hget] at hj
    split at hj
    · rename_i e
      cases hj
      have hnil : c.out j = [] := h.out_eq_nil (by omega)
      show n.Tidy c.now (c.out j)
      rw [hnil, ← hn]
      exact ClientSession.tidy_begin s.config s.current hb
    · exact h.tidy j t hj
  · intro y hy
    have hlt := h.sentLt y hy
    show y.1 < (c.clients.push n).size
    rw [Array.size_push]
    omega
  · intro hl j t hj hx hcfg a st l hr
    have hj : (c.clients.push n)[j]? = some t := hj
    rw [hget] at hj
    split at hj
    · rename_i e
      cases hj
      -- no other client session is of this client
      have hu : c.Unborn x := fun i u hi hux => by
        have hlt := (Array.getElem?_eq_some_iff.1 hi).1
        have hnew : (c.clients.push n)[j]? = some n := by rw [hget, if_pos e]
        obtain ⟨w, hw, hwu⟩ := stay i u hi
        have := hl i j w n hw hnew (hwu.trans hux) hx
        omega
      subst hn
      obtain ⟨rfl, rfl, rfl⟩ := ClientSession.relies_begin hr
      exact ho hu hx hcfg
    · exact h.owed (stay.lone hl) j t hj hx hcfg a st l hr

/-- Programs go on. -/
theorem Safe.update (h : Safe x c) {f : ProgramRun → ProgramRun}
    (hid : ∀ p ∈ c.programs, (f p).id = p.id)
    (hc : ∀ p ∈ c.programs, (f p).program.config.client = p.program.config.client)
    (hw : c.Unborn x → ∀ p ∈ c.programs, p.program.config.client = x →
      (f p).program.stage ≠ .cooling ∧ (f p).client = none) :
    Safe x { c with programs := c.programs.map f } :=
  ⟨h.kept, h.leased, h.ids, h.idLt, h.waiterLt, h.parked, h.tidy, h.sentLt, h.claims, h.honest,
    h.seeks.of_eq (stay_of_eq rfl) rfl rfl rfl rfl, h.awaits.update hid hc hw, h.owed⟩

/-- A search asks a server. -/
theorem Safe.searchAsks (h : Safe x c) {id : Nat} (name : Option String) {s : Search}
    (hid : id < c.fresh) (hb : s.begun ≤ c.now)
    (hn : c.Unborn x → s.config.client = x → ∀ e ∈ c.errands, e.caller ≠ .search id)
    (hp : name = none → ∀ p ∈ c.programs, p.id = id →
      s.config.client = p.program.config.client) : Safe x (c.searchOn id name (.ask s)) := by
  have hd : Safe x (c.dropSearch id) := h.fade (fades_dropSearch c id)
  refine h.launch (f := ⟨c.fresh, .search id, s.current, some (.initSession s.config.client),
    .travelling (c.now + c.latency), .intact⟩) rfl (c.requests + 1) rfl
    (fun m hm _ ha => ⟨m, hm, ha⟩) ?_ ?_ ?_ ?_ ?_
  · intro q hq hc
    cases hq
    exact hc.elim
  · intro j hj
    cases hj
    exact hid
  · intro r hr
    rcases List.mem_append.1 hr with hr | hr
    · exact hd.seeks.searchLt r hr
    · rw [List.mem_singleton.1 hr]
      exact ⟨hid, hb⟩
  · intro r hr
    rcases List.mem_append.1 hr with hr | hr
    · exact Or.inl (List.mem_filter.1 hr).1
    · cases List.mem_singleton.1 hr
      exact Or.inr hp
  · intro hu r hr hx
    rcases List.mem_append.1 hr with hr | hr
    · obtain ⟨hr, hne⟩ := List.mem_filter.1 hr
      refine Or.inl ⟨hr, fun e => ?_⟩
      cases e
      simp at hne
    · cases List.mem_singleton.1 hr
      have hx : s.config.client = x := hx
      exact Or.inr ⟨hn hu hx, rfl, by rw [hx]⟩

/-- A search has found a server, which owes the new session its lease. -/
theorem Safe.searchFinds (h : Safe x c) {id : Nat} (name : Option String) {s : Search}
    (hb : s.begun ≤ c.now)
    (ho : c.Unborn x → s.config.client = x → s.config.lease.length ≤ c.lease.length →
      c.Owed x s.current s.begun s.config.lease.length)
    (hp : name = none → ∀ p ∈ c.programs, p.id = id →
      s.config.client = p.program.config.client) : Safe x (c.searchOn id name (.found s)) := by
  have hd : Safe x (c.dropSearch id) := h.fade (fades_dropSearch c id)
  have hborn := hd.begin (s := s) hb ho
  cases name with
  | some n =>
    have hnames := hborn.fade (fades_names _ (c.names.insert n c.clients.size))
    exact hnames.fade (fades_finish _ _ _)
  | none =>
    have hprograms := hborn.update (f := fun p =>
      if p.id = id then { p with client := some c.clients.size } else p) ?_ ?_ ?_
    · exact hprograms.fade (fades_event _ _ rfl)
    · intro p _
      split <;> rfl
    · intro p _
      split <;> rfl
    · intro hu p hm hx
      have hne : p.id ≠ id := by
        intro e
        -- the new session would be of this client
        exact hu c.clients.size _ Array.getElem?_push_size ((hp rfl p hm e).trans hx)
      rw [if_neg hne]
      obtain ⟨hst, hcl, -⟩ := hborn.awaits.waiting hu p hm hx
      exact ⟨hst, hcl⟩

theorem Safe.searchOn (h : Safe x c) {id : Nat} (name : Option String) {next : Search.Next}
    (hid : id < c.fresh)
    (ha : ∀ s, next = .ask s → s.begun ≤ c.now ∧ (c.Unborn x → s.config.client = x →
      ∀ e ∈ c.errands, e.caller ≠ .search id))
    (hf : ∀ s, next = .found s → s.begun ≤ c.now ∧ (c.Unborn x → s.config.client = x →
      s.config.lease.length ≤ c.lease.length → c.Owed x s.current s.begun s.config.lease.length))
    (hp : name = none → ∀ s, next = .ask s ∨ next = .found s → ∀ p ∈ c.programs, p.id = id →
      s.config.client = p.program.config.client) : Safe x (c.searchOn id name next) := by
  cases next with
  | ask s =>
    obtain ⟨hb, hn⟩ := ha s rfl
    exact h.searchAsks name hid hb hn fun e => hp e s (Or.inl rfl)
  | found s =>
    obtain ⟨hb, ho⟩ := hf s rfl
    exact h.searchFinds name hb ho fun e => hp e s (Or.inr rfl)
  | failed e =>
    have hd : Safe x (c.dropSearch id) := h.fade (fades_dropSearch c id)
    cases name with
    | some n => exact hd.fade (fades_finish _ _ _)
    | none => exact hd.fade (fades_event _ _ rfl)

/-! ## Programs and mail -/

/-- A search begins, under a number that no request of its client's searches has. -/
theorem Safe.beginSearch (h : Safe x c) {id : Nat} (name : Option String) (cfg : ClientConfig)
    (hid : id < c.fresh)
    (hn : c.Unborn x → cfg.client = x → ∀ e ∈ c.errands, e.caller ≠ .search id)
    (hp : name = none → ∀ p ∈ c.programs, p.id = id → cfg.client = p.program.config.client) :
    Safe x (c.searchOn id name (Search.begin cfg c.now)) := by
  refine h.searchOn name hid (fun s hs => ?_) (fun s hs => absurd hs begin_ne_found) ?_
  · obtain ⟨rfl, hb⟩ := begin_eq_ask hs
    exact ⟨Nat.le_of_eq hb, hn⟩
  · rintro hname s (hs | hs) p hm e
    · obtain ⟨rfl, -⟩ := begin_eq_ask hs
      exact hp hname p hm e
    · exact absurd hs begin_ne_found

theorem client_of_clientOf? {p : ProgramRun} {k : Nat} {s : ClientSession}
    (h : c.clientOf? p = some (k, s)) : p.client = some k ∧ c.clients[k]? = some s := by
  obtain ⟨j, hj, h⟩ := Option.bind_eq_some_iff.1 h
  obtain ⟨t, ht, h⟩ := Option.bind_eq_some_iff.1 h
  cases h
  exact ⟨hj, ht⟩

/-- A program does its task, as the program that goes by its number. -/
theorem Safe.perform (h : Safe x c) {p : ProgramRun} (hid : p.id < c.fresh)
    (hp : ∀ q ∈ c.programs, q.id = p.id → q.client = p.client ∧ q.program.config = p.program.config)
    (hc : p.task = .connect → c.Unborn x → p.program.config.client = x →
      ∀ e ∈ c.errands, e.caller ≠ .search p.id) : Safe x (c.perform p) := by
  unfold Cell.perform
  split
  · rename_i ht
    exact h.beginSearch none _ hid (hc ht) fun _ q hq e => by rw [(hp q hq e).2]
  · split
    · rename_i op _ _ k s hk
      obtain ⟨hcl, hi⟩ := client_of_clientOf? hk
      refine h.callClient hi op hid fun hu q hq hx e => ?_
      -- a program that waits for its first session has none to call in
      have hnone := (h.awaits.waiting hu q hq hx).2.1
      rw [(hp q hq e).1, hcl] at hnone
      cases hnone
    · exact h
  · exact h.send (fun _ _ he => by cases he) (fun _ he => by cases he) _ fun _ he => by cases he
  · exact h
  · exact h
  · exact h
  · rename_i closing r _
    have ended : ∀ {d : Cell}, Safe x d → Safe x
        (({ d with programs := d.programs.filter (·.id ≠ p.id) } : Cell).finish p.id (.done r)) :=
      fun hd => (hd.fade (fades_programs List.filter_sublist)).fade (fades_finish _ _ _)
    split
    · rename_i k s hk _
      obtain ⟨-, hi⟩ := client_of_clientOf? hk
      exact ended (h.closeClient hi)
    · exact ended h

/-- A program is replaced by one of its number, which waits as well if it did. -/
theorem Safe.setProgram (h : Safe x c) {p n : ProgramRun} (hp : p ∈ c.programs) (hid : n.id = p.id)
    (hg : n.program.config = p.program.config) (hn : n.client = p.client)
    (hw : c.Unborn x → p.program.config.client = x → n.program.stage ≠ .cooling) :
    Safe x (c.setProgram n) := by
  have same : ∀ q ∈ c.programs, q.id = n.id → q = p := fun q hq e =>
    List.inj_on_of_nodup_map h.awaits.ids hq hp (e.trans hid)
  refine h.update (f := fun q => if q.id = n.id then n else q) ?_ ?_ ?_
  · intro q hq
    split
    · rename_i e
      exact e.symm
    · rfl
  · intro q hq
    split
    · rename_i e
      rw [same q hq e, hg]
    · rfl
  · intro hu q hq hx
    obtain ⟨hst, hcl, -⟩ := h.awaits.waiting hu q hq hx
    split
    · rename_i e
      rw [same q hq e] at hx hcl
      exact ⟨hw hu hx, hn.trans hcl⟩
    · exact ⟨hst, hcl⟩

theorem eq_of_mem_setProgram {n q : ProgramRun} (hq : q ∈ (c.setProgram n).programs)
    (hid : q.id = n.id) : q = n := by
  obtain ⟨r, hr, rfl⟩ := List.mem_map.1 hq
  by_cases e : r.id = n.id
  · exact if_pos e
  · rw [if_neg e] at hid
    exact absurd hid e

/-- A program is told something, which is not the end of a lock call before it has a session. -/
theorem Safe.moveProgram (h : Safe x c) {p : ProgramRun} (hp : p ∈ c.programs) {e : Event}
    (he : ∀ r, e = .answered r → c.Unborn x → p.program.config.client ≠ x) :
    Safe x (c.moveProgram p (p.program.resume c.now e)) := by
  have hcfg := Program.config_resume p.program c.now e
  have hset : Safe x (c.setProgram { p with
      program := (p.program.resume c.now e).1
      task := (p.program.resume c.now e).2 }) := by
    refine h.setProgram hp rfl hcfg rfl fun hu hx hc => ?_
    obtain ⟨r, hr⟩ := Program.answered_of_cooling hc
    exact he r hr hu hx
  refine hset.perform (h.awaits.idLt p hp) ?_ ?_
  · intro q hq hid
    rw [eq_of_mem_setProgram hq hid]
    exact ⟨rfl, rfl⟩
  · intro ht hu hx
    -- it would have to cool down to connect again
    have hwait := h.awaits.waiting hu p hp (hcfg ▸ hx)
    exact absurd (Program.cooling_of_resume ht) hwait.1

theorem Safe.mailStep? (h : Safe x c) (hc : c.mailStep? = some c') : Safe x c' := by
  unfold Cell.mailStep? at hc
  split at hc
  · cases hc
  · rename_i m rest hm
    cases hc
    have told : ∀ n ∈ rest, ∀ id, n.answers? = some id → ∃ n ∈ c.mail, n.answers? = some id :=
      fun n hn _ ha => ⟨n, hm ▸ List.mem_cons_of_mem _ hn, ha⟩
    have sub : (rest.filterMap Mail.sent?).Sublist (c.mail.filterMap Mail.sent?) := by
      rw [hm]
      exact (List.sublist_cons_self m rest).filterMap _
    have hrest : Safe x { c with mail := rest } := h.fade (fades_mail sub told)
    unfold openMail
    split
    · exact h.post hm
    · exact hrest.fade (fades_cancel _ _)
    · rename_i i id r
      split
      · refine h.fade (fades_mail (l := rest ++ [.event id (.answered r)]) ?_ ?_)
        · rw [List.filterMap_append]
          exact (List.append_nil _).symm ▸ sub
        · intro n hn j ha
          rcases List.mem_append.1 hn with hn | hn
          · exact told n hn j ha
          · rw [List.mem_singleton.1 hn] at ha
            exact ⟨.effect i (.finish id r), hm ▸ List.mem_cons_self, ha⟩
      · exact hrest.fade (fades_finish _ _ _)
    · rename_i id e
      split
      · rename_i p hfind
        have hp : p ∈ c.programs := List.mem_of_find?_eq_some hfind
        obtain rfl : p.id = id := by simpa using List.find?_some hfind
        refine hrest.moveProgram hp ?_
        rintro r rfl hu hx
        refine (h.awaits.waiting hu p hp hx).2.2 (Or.inr ⟨_, hm ▸ List.mem_cons_self, rfl⟩)
      · exact hrest

end Cell

end LockCell
