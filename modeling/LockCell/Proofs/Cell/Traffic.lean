import LockCell.Proofs.Cell.Programs
import LockCell.Proofs.Cell.Servers
import LockCell.Proofs.Client.Lease
import LockCell.Proofs.Server.Leases

/-
  LockCell.Proofs.Cell.Traffic — the requests on the network and in the mail, and who may be
  answered by whom.

  What stays of a request while it is out is its errand: its number, who waits for it, where
  it goes and what it asks. What a client session has out (`out`) is on the
  network or in the mail on its way there. Much of what happens in a cell only lets requests
  fade (`Fades`): some are lost, none are added, and no client takes notice.
-/

namespace LockCell

/-- What stays of a request while it is out. -/
structure Errand where
  id : Nat
  caller : Caller
  addr : Addr
  request : Option Request

def Flight.errand (f : Flight) : Errand := ⟨f.id, f.caller, f.addr, f.request⟩

/-- The request of a client session, with the session's number. -/
def Errand.sent? (t : Errand) : Option (Nat × Sent) :=
  match t.caller with
  | .session i ask => some (i, ask, t.addr, t.request)
  | _ => none

def Mail.sent? : Mail → Option (Nat × Sent)
  | .effect i (.send ask a q) => some (i, ask, a, some q)
  | _ => none

/-- What the client session of that number has sent. -/
def sentBy (i : Nat) (l : List (Nat × Sent)) : List Sent :=
  l.filterMap fun x => if x.1 = i then some x.2 else none

theorem mem_sentBy {i : Nat} {l : List (Nat × Sent)} {x : Sent} : x ∈ sentBy i l ↔ (i, x) ∈ l := by
  unfold sentBy
  rw [List.mem_filterMap]
  constructor
  · intro hx
    obtain ⟨⟨j, y⟩, hm, h⟩ := hx
    split at h
    · rename_i e
      cases h
      exact e ▸ hm
    · cases h
  · intro hm
    exact ⟨(i, x), hm, by simp⟩

theorem sentBy_append (i : Nat) (l m : List (Nat × Sent)) :
    sentBy i (l ++ m) = sentBy i l ++ sentBy i m :=
  List.filterMap_append ..

theorem sentBy_self (i : Nat) (l : List Sent) : sentBy i (l.map fun x => (i, x)) = l := by
  have e : ((fun x : Nat × Sent => if x.1 = i then some x.2 else none) ∘ fun x => (i, x)) = some :=
    funext fun x => if_pos rfl
  unfold sentBy
  rw [List.filterMap_map, e, List.filterMap_some]

theorem sentBy_other {i j : Nat} (h : j ≠ i) (l : List Sent) :
    sentBy i (l.map fun x => (j, x)) = [] := by
  unfold sentBy
  rw [List.filterMap_map]
  induction l with
  | nil => rfl
  | cons x l ih => simp [h]

theorem sent?_effects (i : Nat) (l : List Effect) :
    (l.map (Mail.effect i)).filterMap Mail.sent? = (sentOf l).map fun x => (i, x) := by
  induction l with
  | nil => rfl
  | cons e l ih =>
    rw [List.map_cons, List.filterMap_cons]
    cases e with
    | send ask a q => exact congrArg _ ih
    | cancel | finish => exact ih

namespace Cell

def errands (c : Cell) : List Errand := c.flights.map Flight.errand

/-- The requests of client sessions that are out, in the order in which they were sent. -/
def sent (c : Cell) : List (Nat × Sent) :=
  c.errands.filterMap Errand.sent? ++ c.mail.filterMap Mail.sent?

def out (c : Cell) (i : Nat) : List Sent := sentBy i c.sent

/-- From `c` to `c'` the servers move, requests and what waits for them may be lost, and
nothing is sent. -/
structure Fades (W : Client → Prop) (c c' : Cell) : Prop where
  shifts : Shifts W c c'
  clients : c'.clients = c.clients
  errands : c'.errands.Sublist c.errands
  mail : (c'.mail.filterMap Mail.sent?).Sublist (c.mail.filterMap Mail.sent?)
  told : ∀ m ∈ c'.mail, ∀ id, m.answers? = some id → ∃ n ∈ c.mail, n.answers? = some id
  waiters : ∀ w ∈ c'.waiters, ∀ id, w.holder = .flight id → w ∈ c.waiters
  searches : ∀ r ∈ c'.searches, r ∈ c.searches
  programs : c'.programs.Sublist c.programs
  traps : ∀ t ∈ c'.traps, ∃ u ∈ c.traps, u.mishap = t.mishap
  fresh : c.fresh ≤ c'.fresh

variable {W : Client → Prop} {c c' c'' : Cell}

theorem errands_of_flights (h : c'.flights = c.flights) : c'.errands = c.errands :=
  congrArg (List.map Flight.errand) h

namespace Fades

/-- Only the servers, the calls and the clock's book-keeping differ. -/
theorem of_shifts (h : Shifts W c c') (hc : c'.clients = c.clients) (hf : c'.flights = c.flights)
    (hm : c'.mail = c.mail) (hw : c'.waiters = c.waiters) (hs : c'.searches = c.searches)
    (hp : c'.programs = c.programs) (ht : c'.traps = c.traps) (hn : c.fresh ≤ c'.fresh) :
    Fades W c c' := by
  refine ⟨h, hc, ?_, ?_, ?_, ?_, ?_, ?_, ?_, hn⟩
  · exact errands_of_flights hf ▸ .refl _
  · exact hm ▸ .refl _
  · rw [hm]
    exact fun m hm id ha => ⟨m, hm, ha⟩
  · rw [hw]
    exact fun w hw _ _ => hw
  · rw [hs]
    exact fun r hr => hr
  · exact hp ▸ .refl _
  · rw [ht]
    exact fun t ht => ⟨t, ht, rfl⟩

theorem refl (c : Cell) : Fades W c c :=
  of_shifts (.refl c) rfl rfl rfl rfl rfl rfl rfl (Nat.le_refl _)

theorem trans (h : Fades W c c') (h' : Fades W c' c'') : Fades W c c'' where
  shifts := h.shifts.trans h'.shifts
  clients := h'.clients.trans h.clients
  errands := h'.errands.trans h.errands
  mail := h'.mail.trans h.mail
  told m hm id ha := by
    obtain ⟨n, hn, ha⟩ := h'.told m hm id ha
    exact h.told n hn id ha
  waiters w hw id hid := h.waiters w (h'.waiters w hw id hid) id hid
  searches r hr := h.searches r (h'.searches r hr)
  programs := h'.programs.trans h.programs
  traps t ht := by
    obtain ⟨u, hu, e⟩ := h'.traps t ht
    obtain ⟨w, hw, e'⟩ := h.traps u hu
    exact ⟨w, hw, e'.trans e⟩
  fresh := Nat.le_trans h.fresh h'.fresh

theorem foldl {α : Type} {f : Cell → α → Cell} (hf : ∀ c a, Fades W c (f c a)) (l : List α)
    (c : Cell) : Fades W c (l.foldl f c) := by
  induction l generalizing c with
  | nil => exact refl c
  | cons a l ih => exact (hf c a).trans (ih (f c a))

theorem sent (h : Fades W c c') : c'.sent.Sublist c.sent :=
  (h.errands.filterMap _).append h.mail

theorem out (h : Fades W c c') (i : Nat) : (c'.out i).Sublist (c.out i) := h.sent.filterMap _

end Fades

/-! ## What only lets requests fade -/

theorem fades_finish (c : Cell) (id : Nat) (r : Result) : Fades W c (c.finish id r) := by
  have hs := shifts_finish (W := W) c id r
  unfold finish at hs ⊢
  split
  · exact .refl c
  · rename_i h
    rw [h] at hs
    exact .of_shifts hs rfl rfl rfl rfl rfl rfl rfl (Nat.le_refl _)

theorem fades_setServer {i : Nat} {v v' : Server} {k' : Cluster} (hv : c.servers[i]? = some v)
    (hm : Server.Moves W c.now (v, c.cluster) (v', k')) : Fades W c (c.setServer i v' k') :=
  .of_shifts (shifts_setServer hv hm) rfl rfl rfl rfl rfl rfl rfl (Nat.le_refl _)

theorem flights_dropWaiter (c : Cell) (h : Holder) : (c.dropWaiter h).flights = c.flights := by
  unfold dropWaiter
  split
  · rfl
  · dsimp only
    split <;> rfl

theorem fades_dropWaiter (c : Cell) (h : Holder) : Fades W c (c.dropWaiter h) := by
  have hs := shifts_dropWaiter (W := W) c h
  have waiters : ∀ w ∈ (c.dropWaiter h).waiters, w ∈ c.waiters := by
    unfold dropWaiter
    split
    · exact fun w hw => hw
    · dsimp only
      split <;> exact fun w hw => (List.mem_filter.1 hw).1
  have same : (c.dropWaiter h).clients = c.clients ∧ (c.dropWaiter h).mail = c.mail ∧
      (c.dropWaiter h).searches = c.searches ∧ (c.dropWaiter h).programs = c.programs ∧
      (c.dropWaiter h).traps = c.traps ∧ (c.dropWaiter h).fresh = c.fresh := by
    unfold dropWaiter
    split
    · exact ⟨rfl, rfl, rfl, rfl, rfl, rfl⟩
    · dsimp only
      split <;> exact ⟨rfl, rfl, rfl, rfl, rfl, rfl⟩
  obtain ⟨hc, hm, hsr, hp, ht, hn⟩ := same
  refine ⟨hs, hc, ?_, ?_, ?_, fun w hw _ _ => waiters w hw, ?_, ?_, ?_, Nat.le_of_eq hn.symm⟩
  · exact errands_of_flights (flights_dropWaiter c h) ▸ .refl _
  · exact hm ▸ .refl _
  · rw [hm]
    exact fun m hm id ha => ⟨m, hm, ha⟩
  · rw [hsr]
    exact fun r hr => hr
  · exact hp ▸ .refl _
  · rw [ht]
    exact fun t ht => ⟨t, ht, rfl⟩

theorem errands_dropFlight (c : Cell) (id : Nat) :
    (c.dropFlight id).errands = c.errands.filter (·.id ≠ id) := by
  unfold errands dropFlight
  rw [flights_dropWaiter]
  exact (List.filter_map (f := Flight.errand) (p := fun e => decide (e.id ≠ id))).symm

theorem fades_dropFlight (c : Cell) (id : Nat) : Fades W c (c.dropFlight id) := by
  have h₁ : Fades W c { c with flights := c.flights.filter (·.id ≠ id) } :=
    { Fades.refl (W := W) c with
      shifts := .of_eq rfl rfl rfl rfl rfl
      errands := List.filter_sublist.map _ }
  exact h₁.trans (fades_dropWaiter _ _)

theorem fades_cancel (c : Cell) (x : Caller) : Fades W c (c.cancel x) :=
  .foldl (fun c (f : Flight) => fades_dropFlight c f.id) _ c

theorem fades_dropSearch (c : Cell) (id : Nat) : Fades W c (c.dropSearch id) :=
  { Fades.refl (W := W) c with
    shifts := .of_eq rfl rfl rfl rfl rfl
    searches := fun _ hr => (List.mem_filter.1 hr).1 }

/-- Mail that sends no request comes in, at the end, and the first of the old mail may be gone. -/
theorem fades_mail {l : List Mail}
    (h : (l.filterMap Mail.sent?).Sublist (c.mail.filterMap Mail.sent?))
    (ht : ∀ m ∈ l, ∀ id, m.answers? = some id → ∃ n ∈ c.mail, n.answers? = some id) :
    Fades W c { c with mail := l } :=
  { Fades.refl (W := W) c with
    shifts := .of_eq rfl rfl rfl rfl rfl
    mail := h
    told := ht }

theorem fades_event (c : Cell) (id : Nat) {e : Event} (he : (Mail.event id e).answers? = none) :
    Fades W c { c with mail := c.mail ++ [.event id e] } := by
  refine fades_mail ?_ fun m hm j ha => ?_
  · rw [List.filterMap_append]
    exact (List.append_nil _).symm ▸ .refl _
  · rcases List.mem_append.1 hm with hm | hm
    · exact ⟨m, hm, ha⟩
    · rw [List.mem_singleton.1 hm, he] at ha
      cases ha

theorem fades_programs {l : List ProgramRun} (h : l.Sublist c.programs) :
    Fades W c { c with programs := l } :=
  { Fades.refl (W := W) c with
    shifts := .of_eq rfl rfl rfl rfl rfl
    programs := h }

theorem fades_names (c : Cell) (d : Dict Nat) : Fades W c { c with names := d } :=
  .of_shifts (.of_eq rfl rfl rfl rfl rfl) rfl rfl rfl rfl rfl rfl rfl (Nat.le_refl _)

theorem fades_printed (c : Cell) (l : List Status) : Fades W c { c with printed := l } :=
  .of_shifts (.of_eq rfl rfl rfl rfl rfl) rfl rfl rfl rfl rfl rfl rfl (Nat.le_refl _)

theorem fades_traps {l : List Trap} (h : ∀ t ∈ l, ∃ u ∈ c.traps, u.mishap = t.mishap) :
    Fades W c { c with traps := l } :=
  { Fades.refl (W := W) c with
    shifts := .of_eq rfl rfl rfl rfl rfl
    traps := h }

theorem fades_waiters {l : List Waiter} (h : ∀ w ∈ l, w ∈ c.waiters) :
    Fades W c { c with waiters := l } :=
  { Fades.refl (W := W) c with
    shifts := .of_eq rfl rfl rfl rfl rfl
    waiters := fun w hw _ _ => h w hw }

theorem fades_beginCall (c : Cell) (tag : String) (k : Pending) :
    Fades W c (c.beginCall tag k).2 :=
  .of_shifts (.of_eq rfl rfl rfl rfl rfl) rfl rfl rfl rfl rfl rfl rfl (Nat.le_succ _)

/-- A request is somewhere else. -/
theorem errands_setFlight {f : Flight} (h : ∀ g ∈ c.flights, g.id = f.id → g.errand = f.errand) :
    (c.setFlight f).errands = c.errands := by
  unfold errands setFlight
  rw [List.map_map]
  refine List.map_congr_left fun g hg => ?_
  dsimp only [Function.comp]
  split
  · rename_i e
    exact (h g hg e).symm
  · rfl

theorem fades_setFlight {f : Flight} (h : ∀ g ∈ c.flights, g.id = f.id → g.errand = f.errand) :
    Fades W c (c.setFlight f) :=
  { Fades.refl (W := W) c with
    shifts := .of_eq rfl rfl rfl rfl rfl
    errands := errands_setFlight h ▸ .refl _ }

/-- Somebody waits in a session who is not on the network. -/
theorem fades_wait {w : Waiter} (h : ∀ id, w.holder ≠ .flight id) :
    Fades W c { c with waiters := c.waiters ++ [w] } := by
  have old : ∀ u ∈ c.waiters ++ [w], ∀ id, u.holder = .flight id → u ∈ c.waiters := by
    intro u hu id hid
    rcases List.mem_append.1 hu with hu | hu
    · exact hu
    · rw [List.mem_singleton.1 hu] at hid
      exact absurd hid (h id)
  exact { Fades.refl (W := W) c with
    shifts := .of_eq rfl rfl rfl rfl rfl
    waiters := old }

theorem fades_park (c : Cell) (i : Nat) (h : Handled KeepAlive) {x : Holder}
    (hx : ∀ id, x ≠ .flight id) (id : Nat) (r : Except Error KeepAlive → Result) :
    Fades W c (c.park i h x id r) := by
  unfold park
  split
  · exact fades_finish _ _ _
  · exact fades_wait hx

/-! ## What is out -/

theorem mem_out {i : Nat} {x : Sent} : x ∈ c.out i ↔ (i, x) ∈ c.sent := mem_sentBy

/-- What is on the network is out. -/
theorem mem_out_of_errand {t : Errand} (ht : t ∈ c.errands) {i : Nat} {ask : Ask}
    (hc : t.caller = .session i ask) : (ask, t.addr, t.request) ∈ c.out i := by
  refine mem_out.2 (List.mem_append_left _ (List.mem_filterMap.2 ⟨t, ht, ?_⟩))
  unfold Errand.sent?
  rw [hc]

theorem sent_setClient (c : Cell) (i : Nat) (st : ClientSession.Step) :
    (c.setClient i st).sent = c.sent ++ (sentOf st.2).map fun x => (i, x) := by
  unfold sent setClient
  rw [List.filterMap_append, sent?_effects, List.append_assoc]
  rfl

theorem out_setClient_self (c : Cell) (i : Nat) (st : ClientSession.Step) :
    (c.setClient i st).out i = c.out i ++ sentOf st.2 := by
  unfold out
  rw [sent_setClient, sentBy_append, sentBy_self]

theorem out_setClient_other (c : Cell) {i j : Nat} (h : j ≠ i) (st : ClientSession.Step) :
    (c.setClient i st).out j = c.out j := by
  unfold out
  rw [sent_setClient, sentBy_append, sentBy_other (Ne.symm h), List.append_nil]

/-- A request that is answered is not out any more, and the others are where they were. -/
theorem out_dropFlight {t : Errand} (ht : t ∈ c.errands) {i : Nat} {ask : Ask}
    (hc : t.caller = .session i ask) : ∃ l m, c.out i = l ++ (ask, t.addr, t.request) :: m ∧
      ((c.dropFlight t.id).out i).Sublist (l ++ m) := by
  obtain ⟨l, m, hl⟩ := List.append_of_mem ht
  have hts : t.sent? = some (i, ask, t.addr, t.request) := by
    unfold Errand.sent?
    rw [hc]
  generalize hb : l.filterMap Errand.sent? = before
  generalize ha : m.filterMap Errand.sent? ++ c.mail.filterMap Mail.sent? = after
  refine ⟨sentBy i before, sentBy i after, ?_, ?_⟩
  · unfold out sent
    rw [hl, List.filterMap_append, List.filterMap_cons, hts, hb, List.append_assoc,
      List.cons_append, ha]
    simp [sentBy, List.filterMap_append]
  · rw [← sentBy_append]
    refine List.Sublist.filterMap _ ?_
    rw [← hb, ← ha, ← List.append_assoc]
    refine List.Sublist.append ?_ (fades_dropFlight (W := fun _ => False) c t.id).mail
    rw [errands_dropFlight, hl, ← List.filterMap_append]
    refine List.Sublist.filterMap _ ?_
    rw [List.filter_append, List.filter_cons_of_neg (by simp)]
    exact List.filter_sublist.append List.filter_sublist

/-- When the only candidate that is asked answers, no candidate is asked any more. -/
theorem probesOf_dropFlight {t : Errand} (ht : t ∈ c.errands) {i : Nat}
    (hc : t.caller = .session i .probe) (ho : (probesOf (c.out i)).length ≤ 1) :
    probesOf ((c.dropFlight t.id).out i) = [] := by
  obtain ⟨l, m, hout, hsub⟩ := out_dropFlight ht hc
  have hsub : (probesOf ((c.dropFlight t.id).out i)).Sublist (probesOf (l ++ m)) :=
    hsub.filterMap _
  have hrest : probesOf (l ++ m) = [] := by
    refine List.eq_nil_of_length_eq_zero ?_
    rw [hout, probesOf_append] at ho
    rw [probesOf_append]
    simp only [probesOf, List.filterMap_cons, if_true, List.length_append,
      List.length_cons] at ho ⊢
    omega
  rw [hrest] at hsub
  exact List.sublist_nil.1 hsub

end Cell

end LockCell
