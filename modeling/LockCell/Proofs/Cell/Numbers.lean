import LockCell.Proofs.Cell.Strangers

/-
  LockCell.Proofs.Cell.Numbers — a call waits for one thing at a time.

  Whatever waits for something has a number. What it waits for is a lock call, news in the
  mail, a search or a status document, which are counted (`tally`), or it is a program that
  sleeps or waits for its session to expire (`dormant`). Only a call that begins adds to the
  count of its number, which is new; all that happens besides replaces one thing that is
  waited for by another (`Adds`). So the count stays at one (`Single`), and a program that is
  told something has no lock call pending.
-/

namespace LockCell

/-- It tells something to whoever has this number. -/
def Mail.tells (id : Nat) : Mail → Bool
  | .effect _ e => e.ends id
  | .event i _ => i = id

/-- It waits for nothing that anyone else does. -/
def Task.dormant : Task → Bool
  | .sleep _ | .awaitExpiry => true
  | _ => false

theorem countP_flatMap_setIfInBounds {α β : Type} {a : Array α} {i : Nat} {x : α}
    (h : a[i]? = some x) (y : α) (f : α → List β) (p : β → Bool) :
    ((a.setIfInBounds i y).toList.flatMap f).countP p + (f x).countP p =
      (a.toList.flatMap f).countP p + (f y).countP p := by
  obtain ⟨l⟩ := a
  simp only [List.getElem?_toArray] at h
  simp only [List.setIfInBounds_toArray]
  induction l generalizing i with
  | nil => simp at h
  | cons z l ih =>
    cases i with
    | zero =>
      simp only [List.getElem?_cons_zero, Option.some.injEq] at h
      subst h
      simp only [List.set_cons_zero, List.flatMap_cons, List.countP_append]
      omega
    | succ i =>
      simp only [List.getElem?_cons_succ] at h
      have ih := ih h
      simp only [List.set_cons_succ, List.flatMap_cons, List.countP_append]
      omega

namespace Cell

variable {x : Client} {c c' c'' : Cell} {l m : List Nat} {id : Nat}

/-- What is under way for this number: lock calls, news, searches and status requests. -/
def tally (c : Cell) (id : Nat) : Nat :=
  (c.clients.toList.flatMap (·.calls)).countP (·.id = id) + c.mail.countP (Mail.tells id) +
    c.searches.countP (·.id = id) + c.errands.countP (·.caller = .program id)

/-- The programs of this number that wait for nothing of that. -/
def dormant (c : Cell) (id : Nat) : Nat := c.programs.countP fun p => p.id = id && p.task.dormant

/-- No more is under way than before, but once for each of these numbers. -/
structure Adds (l : List Nat) (c c' : Cell) : Prop where
  tally : ∀ id, c'.tally id ≤ c.tally id + l.count id
  dormant : ∀ id, c'.dormant id ≤ c.dormant id
  fresh : c.fresh ≤ c'.fresh

/-- Each number is waited under once, and none that is new. -/
structure Single (c : Cell) : Prop where
  once : ∀ id, c.tally id + c.dormant id ≤ 1
  old : ∀ id, c.fresh ≤ id → c.tally id + c.dormant id = 0

namespace Adds

theorem trans (h : Adds l c c') (h' : Adds m c' c'') : Adds (l ++ m) c c'' where
  tally id := by
    have h₁ := h.tally id
    have h₂ := h'.tally id
    rw [List.count_append]
    omega
  dormant id := Nat.le_trans (h'.dormant id) (h.dormant id)
  fresh := Nat.le_trans h.fresh h'.fresh

theorem of_eq (hc : c'.clients = c.clients) (hm : c'.mail = c.mail) (hs : c'.searches = c.searches)
    (hf : c'.flights = c.flights) (hp : c'.programs = c.programs) (hn : c.fresh ≤ c'.fresh) :
    Adds [] c c' := by
  refine ⟨fun id => Nat.le_of_eq ?_, fun id => Nat.le_of_eq ?_, hn⟩
  · unfold Cell.tally errands
    rw [hc, hm, hs, hf, List.count_nil, Nat.add_zero]
  · unfold Cell.dormant
    rw [hp]

theorem refl (c : Cell) : Adds [] c c := of_eq rfl rfl rfl rfl rfl (Nat.le_refl _)

theorem foldl {α : Type} {f : Cell → α → Cell} (hf : ∀ c a, Adds [] c (f c a)) (l : List α)
    (c : Cell) : Adds [] c (l.foldl f c) := by
  induction l generalizing c with
  | nil => exact refl c
  | cons a l ih => exact (hf c a).trans (ih (f c a))

/-- One thing that was under way makes room for another. -/
theorem spend {d : Cell} (h : Adds [id] d c') (hd : Adds [] c d) (hs : d.tally id < c.tally id) :
    Adds [] c c' := by
  refine ⟨fun i => ?_, fun i => Nat.le_trans (h.dormant i) (hd.dormant i),
    Nat.le_trans hd.fresh h.fresh⟩
  have h₁ := h.tally i
  have h₂ := hd.tally i
  rw [List.count_singleton] at h₁
  rw [List.count_nil] at h₂ ⊢
  by_cases e : id = i
  · subst e
    simp only [beq_self_eq_true, if_true] at h₁
    omega
  · simp only [beq_iff_eq, e, if_false] at h₁
    omega

end Adds

theorem Single.adds (h : Single c) (ha : Adds [] c c') : Single c' := by
  have le : ∀ id, c'.tally id + c'.dormant id ≤ c.tally id + c.dormant id := fun id =>
    Nat.add_le_add (ha.tally id) (ha.dormant id)
  refine ⟨fun id => Nat.le_trans (le id) (h.once id), fun id hid => ?_⟩
  have hz := h.old id (Nat.le_trans ha.fresh hid)
  have hle := le id
  omega

/-- A call begins, under a new number. -/
theorem Single.begin (h : Single c) (ha : Adds [c.fresh] c c') (hn : c.fresh < c'.fresh) :
    Single c' := by
  refine ⟨fun id => ?_, fun id hid => ?_⟩
  · have ht := ha.tally id
    have hd := ha.dormant id
    have ho := h.once id
    rw [List.count_singleton] at ht
    by_cases e : c.fresh = id
    · have hz := h.old id (Nat.le_of_eq e)
      simp only [e, beq_self_eq_true, if_true] at ht
      omega
    · simp only [beq_iff_eq, e, if_false] at ht
      omega
  · have ht := ha.tally id
    have hd := ha.dormant id
    have hz := h.old id (by omega)
    rw [List.count_singleton, if_neg (by simp; omega)] at ht
    omega

/-! ## What adds nothing -/

theorem adds_finish (c : Cell) (id : Nat) (r : Result) : Adds [] c (c.finish id r) := by
  unfold finish
  split <;> exact .of_eq rfl rfl rfl rfl rfl (Nat.le_refl _)

theorem adds_setServer (c : Cell) (i : Nat) (v : Server) (k : Cluster) :
    Adds [] c (c.setServer i v k) :=
  .of_eq rfl rfl rfl rfl rfl (Nat.le_refl _)

theorem adds_dropWaiter (c : Cell) (h : Holder) : Adds [] c (c.dropWaiter h) := by
  unfold dropWaiter
  split
  · exact .refl c
  · dsimp only
    split <;> exact .of_eq rfl rfl rfl rfl rfl (Nat.le_refl _)

theorem tally_flights (c : Cell) (l : List Flight) (id : Nat) :
    ({ c with flights := l } : Cell).tally id + c.errands.countP (·.caller = .program id) =
      c.tally id + (l.map Flight.errand).countP (·.caller = .program id) := by
  simp only [tally, errands]
  omega

theorem adds_flights {l : List Flight} (h : l.Sublist c.flights) :
    Adds [] c { c with flights := l } := by
  refine ⟨fun id => ?_, fun _ => Nat.le_refl _, Nat.le_refl _⟩
  have he := tally_flights c l id
  have hle := (h.map Flight.errand).countP_le (p := fun e => decide (e.caller = .program id))
  have hle : (l.map Flight.errand).countP (·.caller = .program id) ≤
    c.errands.countP (·.caller = .program id) := hle
  omega

theorem adds_dropFlight (c : Cell) (id : Nat) : Adds [] c (c.dropFlight id) :=
  (adds_flights List.filter_sublist).trans (adds_dropWaiter _ _)

theorem adds_cancel (c : Cell) (y : Caller) : Adds [] c (c.cancel y) :=
  .foldl (fun c (f : Flight) => adds_dropFlight c f.id) _ c

theorem adds_setFlight {f : Flight} (h : ∀ g ∈ c.flights, g.id = f.id → g.errand = f.errand) :
    Adds [] c (c.setFlight f) := by
  refine ⟨fun id => ?_, fun _ => Nat.le_refl _, Nat.le_refl _⟩
  have he := errands_setFlight h
  unfold tally
  rw [he]
  exact Nat.le_add_right _ _

theorem adds_programs {l : List ProgramRun} (h : l.Sublist c.programs) :
    Adds [] c { c with programs := l } :=
  ⟨fun _ => Nat.le_refl _, fun _ => h.countP_le, Nat.le_refl _⟩

theorem adds_send (c : Cell) {y : Caller} (hy : ∀ id, y ≠ .program id) (a : Addr)
    (q : Option Request) : Adds [] c (c.send y a q) := by
  refine ⟨fun id => ?_, fun _ => Nat.le_refl _, Nat.le_succ _⟩
  simp [tally, errands, send, List.countP_append, Flight.errand, hy id]

theorem adds_ask (c : Cell) (id : Nat) (a : Addr) (q : Option Request) :
    Adds [id] c (c.send (.program id) a q) := by
  refine ⟨fun i => ?_, fun _ => Nat.le_refl _, Nat.le_succ _⟩
  simp [tally, errands, send, List.countP_append, List.countP_singleton, Flight.errand,
    List.count_singleton, Nat.add_assoc]

theorem adds_event (c : Cell) (id : Nat) (e : Event) :
    Adds [id] c { c with mail := c.mail ++ [.event id e] } := by
  refine ⟨fun i => ?_, fun _ => Nat.le_refl _, Nat.le_refl _⟩
  simp [tally, errands, List.countP_append, List.countP_singleton, Mail.tells, List.count_singleton]
  omega

/-! ## Client sessions -/

theorem tally_setClient {i : Nat} {s : ClientSession} (hi : c.clients[i]? = some s)
    (st : ClientSession.Step) (id : Nat) :
    (c.setClient i st).tally id + s.tally id = c.tally id + st.tally id := by
  have hs := countP_flatMap_setIfInBounds hi st.1 (·.calls) (·.id = id)
  have hm : (st.2.map (Mail.effect i)).countP (Mail.tells id) = st.2.countP (Effect.ends id) :=
    List.countP_map ..
  simp only [tally, setClient, List.countP_append, hm, ClientSession.Step.tally,
    ClientSession.tally]
  simp only [errands] at *
  omega

theorem adds_setClient {i : Nat} {s : ClientSession} (hi : c.clients[i]? = some s)
    {st : ClientSession.Step} (h : ∀ id, st.tally id ≤ s.tally id + l.count id) :
    Adds l c (c.setClient i st) := by
  refine ⟨fun id => ?_, fun _ => Nat.le_refl _, Nat.le_refl _⟩
  have ht := tally_setClient hi st id
  have hle := h id
  omega

theorem adds_call {i : Nat} {s : ClientSession} (hi : c.clients[i]? = some s) (id : Nat)
    (op : LockOp) : Adds [id] c (c.setClient i (s.call id op)) :=
  adds_setClient hi fun j => by
    rw [ClientSession.tally_call, List.count_singleton]
    simp

theorem adds_close {i : Nat} {s : ClientSession} (hi : c.clients[i]? = some s) :
    Adds [] c (c.setClient i (s.close, [])) :=
  adds_setClient hi fun _ => Nat.le_refl _

theorem adds_abandonLock (c : Cell) (k id : Nat) : Adds [] c (c.abandonLock k id) := by
  unfold abandonLock
  split
  · rename_i s hi
    exact adds_setClient hi fun j => s.tally_abandon id j
  · exact .refl c

theorem adds_born (c : Cell) (id : Nat) (s : Search) : Adds [] (c.dropSearch id) (c.born id s) := by
  refine ⟨fun i => ?_, fun _ => Nat.le_refl _, Nat.le_refl _⟩
  simp [tally, born, dropSearch, errands, ClientSession.begin]

/-! ## Searches -/

theorem tally_dropSearch (c : Cell) (k id : Nat) :
    (c.dropSearch k).tally id + (if id = k then c.searches.countP (·.id = k) else 0) =
      c.tally id := by
  have hs : (c.searches.filter (·.id ≠ k)).countP (·.id = id) +
      (if id = k then c.searches.countP (·.id = k) else 0) = c.searches.countP (·.id = id) := by
    rw [List.countP_filter]
    split
    · rename_i e
      subst e
      simp
    · rename_i hne
      rw [Nat.add_zero]
      refine List.countP_congr fun r _ => ?_
      simp only [Bool.and_eq_true, decide_eq_true_eq, ne_eq, and_iff_left_iff_imp]
      rintro rfl
      exact hne
  simp only [tally, dropSearch, errands] at *
  omega

theorem adds_dropSearch (c : Cell) (id : Nat) : Adds [] c (c.dropSearch id) := by
  refine ⟨fun i => ?_, fun _ => Nat.le_refl _, Nat.le_refl _⟩
  have h := tally_dropSearch c id i
  omega

/-- A search goes on, or its end is told. -/
theorem adds_searchOn (c : Cell) (id : Nat) (name : Option String) (next : Search.Next) :
    Adds [id] (c.dropSearch id) (c.searchOn id name next) := by
  have told : ∀ d : Cell, Adds [] (c.dropSearch id) d → ∀ e,
      Adds [id] (c.dropSearch id) { d with mail := d.mail ++ [.event id e] } := fun d hd e =>
    hd.trans (adds_event d id e)
  have ended : ∀ d : Cell, Adds [] (c.dropSearch id) d → ∀ r,
      Adds [id] (c.dropSearch id) (d.finish id r) := fun d hd r =>
    have h := hd.trans (adds_finish d id r)
    ⟨fun i => Nat.le_trans (h.tally i) (Nat.le_add_right _ _), h.dormant, h.fresh⟩
  cases next with
  | ask s =>
    have hs : Adds [id] (c.dropSearch id)
        { c.dropSearch id with searches := (c.dropSearch id).searches ++ [⟨id, name, s⟩] } := by
      refine ⟨fun i => ?_, fun _ => Nat.le_refl _, Nat.le_refl _⟩
      simp [tally, errands, List.countP_append, List.countP_singleton, List.count_singleton]
      omega
    exact hs.trans (adds_send _ (fun _ e => by cases e) _ _)
  | found s =>
    have hb := adds_born c id s
    cases name with
    | some n =>
      exact ended { c.born id s with names := c.names.insert n c.clients.size }
        (hb.trans (.of_eq rfl rfl rfl rfl rfl (Nat.le_refl _))) _
    | none =>
      refine told { c.born id s with programs := c.programs.map fun p =>
        if p.id = id then { p with client := some c.clients.size } else p } ?_ _
      refine ⟨hb.tally, fun i => ?_, hb.fresh⟩
      refine Nat.le_of_eq ?_
      unfold Cell.dormant
      rw [List.countP_map]
      refine List.countP_congr fun p _ => ?_
      dsimp only [Function.comp]
      split <;> rfl
  | failed e =>
    cases name with
    | some n => exact ended _ (.refl _) _
    | none => exact told _ (.refl _) _

/-! ## Programs -/

theorem adds_perform (c : Cell) (p : ProgramRun) : Adds [p.id] c (c.perform p) := by
  have more : ∀ {d : Cell}, Adds [] c d → Adds [p.id] c d := fun h =>
    ⟨fun i => Nat.le_trans (h.tally i) (Nat.le_add_right _ _), h.dormant, h.fresh⟩
  unfold perform
  split
  · exact (adds_dropSearch c p.id).trans (adds_searchOn _ _ _ _)
  · split
    · rename_i k s hs
      exact adds_call (client_of_clientOf? hs).2 _ _
    · exact more (.refl c)
  · exact adds_ask _ _ _ _
  · exact more (.refl c)
  · exact more (.refl c)
  · exact more (.refl c)
  · have ended : ∀ d r, Adds [] d
        ({ d with programs := d.programs.filter (·.id ≠ p.id) }.finish p.id (.done r)) :=
      fun d r => (adds_programs List.filter_sublist).trans (adds_finish _ _ _)
    refine more ?_
    split
    · rename_i k s hs _
      exact (adds_close (client_of_clientOf? hs).2).trans (ended _ _)
    · exact ended _ _

theorem perform_of_dormant {p : ProgramRun} (h : p.task.dormant = true) : c.perform p = c := by
  unfold perform
  split <;> rename_i ht
  · rw [ht] at h
    cases h
  · rw [ht] at h
    cases h
  · rw [ht] at h
    cases h
  · rfl
  · rfl
  · rfl
  · rw [ht] at h
    cases h

theorem dormant_setProgram (hn : (c.programs.map ProgramRun.id).Nodup) (p : ProgramRun)
    (id : Nat) : (c.setProgram p).dormant id ≤
      if id = p.id then (if p.task.dormant then 1 else 0) else c.dormant id := by
  unfold dormant setProgram
  rw [List.countP_map]
  split
  · rename_i e
    subst e
    split
    · -- there is one program of that number
      refine Nat.le_trans ?_ (List.nodup_iff_count_le_one.1 hn p.id)
      rw [List.count_eq_countP, List.countP_map]
      refine List.countP_mono_left fun q _ hq => ?_
      dsimp only [Function.comp] at hq ⊢
      split at hq
      · rename_i e
        simpa using e
      · rename_i hne
        simp [hne] at hq
    · rename_i hd
      refine Nat.le_of_eq (List.countP_eq_zero.2 fun q _ hq => ?_)
      dsimp only [Function.comp] at hq
      split at hq
      · simp [hd] at hq
      · rename_i hne
        simp [hne] at hq
  · rename_i hne
    refine Nat.le_of_eq (List.countP_congr fun q _ => ?_)
    dsimp only [Function.comp]
    split
    · rename_i e
      simp [e, Ne.symm hne]
    · rfl

/-- A program goes on from what it has been waiting for to one other thing. -/
theorem moveProgram_le (hn : (c.programs.map ProgramRun.id).Nodup) (p : ProgramRun)
    (m : Program.Move) (id : Nat) :
    (c.moveProgram p m).tally id + (c.moveProgram p m).dormant id ≤
      c.tally id + if id = p.id then 1 else c.dormant id := by
  have hd := dormant_setProgram hn { p with program := m.1, task := m.2 } id
  have ht : (c.setProgram { p with program := m.1, task := m.2 }).tally id = c.tally id := rfl
  unfold moveProgram
  dsimp only at hd ⊢
  cases hm : m.2.dormant with
  | true =>
    rw [perform_of_dormant hm, ht]
    simp only [hm, if_true] at hd
    omega
  | false =>
    have ha := adds_perform (c.setProgram { p with program := m.1, task := m.2 })
      { p with program := m.1, task := m.2 }
    have h₁ := ha.tally id
    have h₂ := ha.dormant id
    rw [ht, List.count_singleton] at h₁
    simp only [hm, Bool.false_eq_true, if_false] at hd
    by_cases e : id = p.id
    · simp only [e, beq_self_eq_true, if_true] at *
      omega
    · simp only [e, Ne.symm e, beq_iff_eq, if_false] at *
      omega

theorem fresh_moveProgram (c : Cell) (p : ProgramRun) (m : Program.Move) :
    c.fresh ≤ (c.moveProgram p m).fresh :=
  (adds_perform (c.setProgram { p with program := m.1, task := m.2 })
    { p with program := m.1, task := m.2 }).fresh

/-- A program goes on that has nothing under way. -/
theorem Single.move (h : Single c) (ha : Adds [] c c')
    (hn : (c'.programs.map ProgramRun.id).Nodup) {p : ProgramRun} (hz : c'.tally p.id = 0)
    (hp : p.id < c.fresh) (m : Program.Move) : Single (c'.moveProgram p m) := by
  have hd := h.adds ha
  refine ⟨fun id => ?_, fun id hid => ?_⟩
  · have hle := moveProgram_le hn p m id
    have ho := hd.once id
    by_cases e : id = p.id
    · subst e
      simp only [if_true] at hle
      omega
    · simp only [e, if_false] at hle
      omega
  · have hle := moveProgram_le hn p m id
    have hf := Nat.le_trans ha.fresh (fresh_moveProgram c' p m)
    have hz := hd.old id (Nat.le_trans (fresh_moveProgram c' p m) hid)
    rw [if_neg (by omega)] at hle
    omega

/-! ## Mail -/

theorem tally_mail {m : Mail} {rest : List Mail} (hm : c.mail = m :: rest) (id : Nat) :
    c.tally id = ({ c with mail := rest } : Cell).tally id + if m.tells id then 1 else 0 := by
  simp only [tally, hm, List.countP_cons, errands]
  omega

/-- Whoever is told something waits for nothing else. -/
theorem Single.told (h : Single c) {m : Mail} {rest : List Mail} (hm : c.mail = m :: rest)
    (hid : m.tells id = true) :
    ({ c with mail := rest } : Cell).tally id = 0 ∧ c.dormant id = 0 ∧ id < c.fresh := by
  have ho := h.once id
  have ht := tally_mail hm id
  rw [if_pos hid] at ht
  refine ⟨by omega, by omega, ?_⟩
  by_cases hlt : id < c.fresh
  · exact hlt
  · have hz := h.old id (Nat.le_of_not_lt hlt)
    omega

theorem Single.mailStep? (h : Single c) (hn : (c.programs.map ProgramRun.id).Nodup)
    (hc : c.mailStep? = some c') : Single c' := by
  unfold Cell.mailStep? at hc
  split at hc
  · cases hc
  · rename_i m rest hm
    cases hc
    have hrest : Adds [] c { c with mail := rest } := by
      refine ⟨fun id => ?_, fun _ => Nat.le_refl _, Nat.le_refl _⟩
      have ht := tally_mail hm id
      omega
    unfold openMail
    split
    · exact h.adds (hrest.trans (adds_send _ (fun _ e => by cases e) _ _))
    · exact h.adds (hrest.trans (adds_cancel _ _))
    · rename_i i id r
      split
      · refine h.adds ((adds_event { c with mail := rest } id (.answered r)).spend hrest ?_)
        have ht := tally_mail hm id
        rw [if_pos (show (Mail.effect i (.finish id r)).tells id = true from
          decide_eq_true rfl)] at ht
        omega
      · exact h.adds (hrest.trans (adds_finish _ _ _))
    · rename_i id e
      split
      · rename_i p hfind
        obtain rfl : p.id = id := by simpa using List.find?_some hfind
        obtain ⟨hz, -, hlt⟩ := h.told (m := .event p.id e) hm (decide_eq_true rfl)
        exact h.move hrest hn hz hlt _
      · exact h.adds hrest

/-! ## The network -/

/-- A program does not wait any more for an answer that has come. -/
theorem tally_dropFlight {f : Flight} (hf : f.errand ∈ c.errands) (hc : f.caller = .program id) :
    (c.dropFlight f.id).tally id < c.tally id := by
  have hw : (c.dropFlight f.id).tally id ≤ _ :=
    (adds_dropWaiter { c with flights := c.flights.filter (·.id ≠ f.id) } (.flight f.id)).tally id
  have he := tally_flights c (c.flights.filter (·.id ≠ f.id)) id
  have hlt : ((c.flights.filter (·.id ≠ f.id)).map Flight.errand).countP
      (·.caller = .program id) < c.errands.countP (·.caller = .program id) := by
    have hmap : (c.flights.filter (·.id ≠ f.id)).map Flight.errand =
        c.errands.filter (·.id ≠ f.id) :=
      (List.filter_map (f := Flight.errand) (p := fun e => decide (e.id ≠ f.id))).symm
    obtain ⟨l, m, hl⟩ := List.append_of_mem hf
    have hsub : (c.errands.filter (·.id ≠ f.id)).Sublist (l ++ m) := by
      rw [hl, List.filter_append, List.filter_cons_of_neg (by simp [Flight.errand])]
      exact List.filter_sublist.append List.filter_sublist
    have hle := hsub.countP_le (p := fun e => decide (e.caller = .program id))
    have hself : decide (f.errand.caller = .program id) = true := decide_eq_true hc
    have htotal : c.errands.countP (·.caller = .program id) =
        (l ++ m).countP (·.caller = .program id) + 1 := by
      rw [hl, List.countP_append, List.countP_append, List.countP_cons]
      simp only [hself, if_true]
      omega
    rw [hmap, htotal]
    exact Nat.lt_succ_of_le hle
  rw [List.count_nil] at hw
  omega

theorem adds_deliver {f : Flight} (hf : f.errand ∈ c.errands) (d : Delivery) :
    Adds [] c (c.deliver f d) := by
  have hd := adds_dropFlight c f.id
  unfold Cell.deliver
  dsimp only
  split
  · exact hd.trans (adds_finish _ _ _)
  · rename_i id _
    split
    · rename_i r hfind
      obtain rfl : r.id = id := by simpa using List.find?_some hfind
      refine hd.trans ((adds_searchOn (c.dropFlight f.id) r.id r.name _).spend
        (adds_dropSearch _ _) ?_)
      have hpos : 0 < (c.dropFlight f.id).searches.countP (·.id = r.id) :=
        List.countP_pos_iff.2 ⟨r, List.mem_of_find?_eq_some hfind, decide_eq_true rfl⟩
      have ht := tally_dropSearch (c.dropFlight f.id) r.id r.id
      rw [if_pos rfl] at ht
      omega
    · exact hd
  · split
    · rename_i s hi
      exact hd.trans (adds_setClient hi fun i => s.tally_answer _ _ _ i)
    · exact hd
  · rename_i id hcl
    have hlt := tally_dropFlight hf hcl
    split
    · exact (adds_event { c.dropFlight f.id with printed := _ } id .statusRead).spend
        (hd.trans (.of_eq rfl rfl rfl rfl rfl (Nat.le_refl _))) hlt
    · exact (adds_event (c.dropFlight f.id) id .statusRead).spend hd hlt

theorem adds_reach (h : Safe x c) {f : Flight} (hf : f.errand ∈ c.errands) :
    Adds [] c (c.reach f) := by
  unfold Cell.reach
  dsimp only
  split
  · exact adds_deliver hf _
  · rename_i i v _
    split
    · exact adds_deliver hf _
    · rename_i q _
      rcases v.serve c.cluster c.now q with ⟨r | ⟨j, t⟩, v', k'⟩
      · exact (adds_setServer c i v' k').trans
          (adds_deliver (c := c.setServer i v' k') hf _)
      · have hplace : ∀ g ∈ c.flights, g.id = f.id → g.errand = f.errand := fun g hg hid =>
          h.errand_eq (List.mem_map_of_mem hg) hf hid
        exact ((adds_setServer c i v' k').trans (adds_setFlight (c := c.setServer i v' k')
          (f := { f with place := .parked }) hplace)).trans
            (.of_eq rfl rfl rfl rfl rfl (Nat.le_refl _))

theorem adds_arrive (h : Safe x c) {f : Flight} (hf : f.errand ∈ c.errands) :
    Adds [] c (c.arrive f) := by
  unfold Cell.arrive
  split
  · exact adds_reach h hf
  · rename_i m traps hs
    obtain ⟨-, htraps⟩ := spring_eq_some hs
    have hc : Adds [] c { c with traps } := .of_eq rfl rfl rfl rfl rfl (Nat.le_refl _)
    have h₁ : Safe x { c with traps } := h.fade (fades_traps htraps)
    have hplace : ∀ g ∈ c.flights, g.id = f.id → g.errand = f.errand := fun g hg hid =>
      h.errand_eq (List.mem_map_of_mem hg) hf hid
    refine hc.trans ?_
    cases m with
    | refuse | reset | drop | reply => exact adds_deliver (c := { c with traps }) hf _
    | dropAfter => exact adds_reach h₁ (f := { f with back := .lost }) hf
    | cutBody code => exact adds_reach h₁ (f := { f with back := .cut code }) hf
    | hang => exact adds_setFlight (c := { c with traps }) (f := { f with place := .hanging }) hplace
    | delay span =>
      exact adds_setFlight (c := { c with traps })
        (f := { f with place := .delayed (c.now + span) }) hplace

theorem adds_flightStep? (h : Safe x c) (hc : c.flightStep? = some c') : Adds [] c c' := by
  obtain ⟨f, hf, hc⟩ := List.exists_of_findSome?_eq_some hc
  have hmem : f.errand ∈ c.errands := List.mem_map_of_mem hf
  split at hc
  · split at hc
    · cases hc
      exact adds_arrive h hmem
    · cases hc
  · split at hc
    · cases hc
      exact adds_reach h hmem
    · cases hc
  · cases hc
  · cases hc

theorem adds_release (c : Cell) (w : Waiter) (r : Except Error KeepAlive) :
    Adds [] c (c.release w r) := by
  have hc : Adds [] c { c with waiters := c.waiters.filter (·.holder ≠ w.holder) } :=
    .of_eq rfl rfl rfl rfl rfl (Nat.le_refl _)
  unfold Cell.release
  dsimp only
  refine hc.trans ?_
  split
  · exact adds_finish _ _ _
  · exact adds_finish _ _ _
  · split
    · rename_i f hfind
      exact adds_deliver (c := { c with waiters := c.waiters.filter (·.holder ≠ w.holder) })
        (List.mem_map_of_mem (List.mem_of_find?_eq_some hfind)) _
    · exact .refl _

theorem adds_sessionStep? (hc : c.sessionStep? = some c') : Adds [] c c' := by
  obtain ⟨i, v, j, -, hc⟩ := exists_sessionStepAt? hc
  unfold sessionStepAt? at hc
  split at hc
  · cases hc
    exact adds_setServer _ _ _ _
  · split at hc
    · cases hc
    · dsimp only at hc
      split at hc
      · cases hc
        exact (adds_setServer _ _ _ _).trans (adds_release _ _ _)
      · cases hc
        exact adds_setServer _ _ _ _

/-! ## What happens by itself -/

theorem adds_clientStep? (hc : c.clientStep? = some c') : Adds [] c c' := by
  obtain ⟨i, -, hc⟩ := List.exists_of_findSome?_eq_some hc
  obtain ⟨s, hi, hc⟩ := Option.bind_eq_some_iff.1 hc
  obtain ⟨st, hst, hc⟩ := Option.bind_eq_some_iff.1 hc
  cases hc
  exact adds_setClient hi fun i => ClientSession.tally_step? hst i

theorem adds_expiryStep? (hc : c.expiryStep? = some c') : Adds [] c c' := by
  obtain ⟨p, -, hc⟩ := List.exists_of_findSome?_eq_some hc
  split at hc
  · split at hc
    · cases hc
      exact adds_finish _ _ _
    · cases hc
  · cases hc

/-- Who sleeps, or waits for its session to expire, waits for nothing else. -/
theorem Single.idle (h : Single c) {p : ProgramRun} (hp : p ∈ c.programs)
    (hd : p.task.dormant = true) : c.tally p.id = 0 ∧ p.id < c.fresh := by
  have hpos : 0 < c.dormant p.id :=
    List.countP_pos_iff.2 ⟨p, hp, by simp [hd]⟩
  have ho := h.once p.id
  refine ⟨by omega, ?_⟩
  by_cases hlt : p.id < c.fresh
  · exact hlt
  · have hz := h.old p.id (Nat.le_of_not_lt hlt)
    omega

theorem Single.programStep? (h : Single c) (hn : (c.programs.map ProgramRun.id).Nodup)
    (hc : c.programStep? = some c') : Single c' := by
  obtain ⟨p, hp, hc⟩ := List.exists_of_findSome?_eq_some hc
  have go : p.task.dormant = true → ∀ m, Single (c.moveProgram p m) := by
    intro hd m
    obtain ⟨hz, hlt⟩ := h.idle hp hd
    exact h.move (.refl c) hn hz hlt m
  split at hc
  · rename_i t ht
    split at hc
    · cases hc
      exact go (by rw [ht]; rfl) _
    · cases hc
  · rename_i ht
    split at hc
    · cases hc
      exact go (by rw [ht]; rfl) _
    · cases hc
  · cases hc

theorem Single.next? (h : Single c) (hs : Safe x c) (hc : c.next? = some c') : Single c' := by
  rcases next?_cases hc with hc | hc | hc | hc | hc | hc
  · exact h.mailStep? hs.awaits.ids hc
  · exact h.adds (adds_sessionStep? hc)
  · exact h.adds (adds_flightStep? hs hc)
  · exact h.adds (adds_clientStep? hc)
  · exact h.adds (adds_expiryStep? hc)
  · exact h.programStep? hs.awaits.ids hc

/-! ## What is done from outside -/

theorem adds_hangUp (h : Safe x c) (a : Addr) : Adds [] c (c.hangUp a) :=
  (h.hangUp_induction (Q := Adds [] c) (.refl c)
    (fun _ _ _ hd hf => hd.trans (adds_deliver hf .closed)) a).2

theorem adds_setUp (c : Cell) (a : Addr) (up : Bool) : Adds [] c (c.setUp a up) := by
  unfold setUp
  split
  · exact .of_eq rfl rfl rfl rfl rfl (Nat.le_refl _)
  · exact .refl c

theorem adds_down (h : Safe x c) (a : Addr) : Adds [] c (c.down a) :=
  (adds_setUp c a false).trans (adds_hangUp (h.setUp a false) a)

theorem adds_park (c : Cell) (i : Nat) (h : Handled KeepAlive) (w : Holder) (id : Nat)
    (r : Except Error KeepAlive → Result) : Adds [] c (c.park i h w id r) := by
  unfold park
  split
  · exact adds_finish _ _ _
  · exact .of_eq rfl rfl rfl rfl rfl (Nat.le_refl _)

theorem adds_beginCall (c : Cell) (tag : String) (k : Pending) : Adds [] c (c.beginCall tag k).2 :=
  .of_eq rfl rfl rfl rfl rfl (Nat.le_succ _)

/-- A call waits for one thing at first, or for nothing that is counted. -/
theorem Single.call (h : Single c) {tag : String} {k : Pending}
    (ha : Adds l (c.beginCall tag k).2 c') (hl : l = [] ∨ l = [c.fresh]) : Single c' := by
  have hb := (adds_beginCall c tag k).trans ha
  rcases hl with rfl | rfl
  · exact h.adds hb
  · exact h.begin hb ha.fresh

theorem adds_beginHttp (c : Cell) (id i : Nat) (v : Server) (m : Http.Message) :
    Adds [] c (c.beginHttp id i v m) := by
  unfold Cell.beginHttp
  split
  · exact adds_finish _ _ _
  · exact adds_finish _ _ _
  · rename_i q _
    rcases v.serve c.cluster c.now q with ⟨r | ⟨j, t⟩, v', k'⟩
    · exact (adds_setServer _ _ _ _).trans (adds_finish _ _ _)
    · exact .of_eq rfl rfl rfl rfl rfl (Nat.le_refl _)

theorem dormant_start (cfg : ClientConfig) (cmd : ProgramCommand) :
    (Program.start cfg cmd).2.dormant = false := by
  unfold Program.start
  cases cmd with
  | status => cases cfg.servers <;> rfl
  | _ => rfl

theorem Single.beginProgram (h : Single c) (tag : String) (args : List String) :
    Single (c.beginProgram tag args) := by
  unfold Cell.beginProgram
  dsimp only
  split
  · exact h.call (adds_finish _ _ _) (Or.inl rfl)
  · rename_i o _
    let p : ProgramRun := ⟨c.fresh, (Program.start o.config o.command).1,
      (Program.start o.config o.command).2, none⟩
    have hp : Adds [] (c.beginCall tag .program).2 { (c.beginCall tag .program).2 with
        programs := (c.beginCall tag .program).2.programs ++ [p] } := by
      refine ⟨fun _ => Nat.le_refl _, fun id => ?_, Nat.le_refl _⟩
      have hd : p.task.dormant = false := dormant_start o.config o.command
      simp [dormant, List.countP_append, hd]
    exact h.call (hp.trans (adds_perform _ p)) (Or.inr rfl)

theorem Single.actCall (h : Single c) (tag : String) (s : CallStep) :
    Single (c.actCall tag s).2 := by
  cases s with
  | managerKeepAlive n y claimed =>
    simp only [Cell.actCall]
    split
    · exact h
    · exact h.call ((adds_setServer _ _ _ _).trans (adds_park _ _ _ _ _ _)) (Or.inl rfl)
  | sessionKeepAlive handle =>
    simp only [Cell.actCall]
    split
    · exact h
    · split
      · exact h
      · exact h.call ((adds_setServer _ _ _ _).trans (adds_park _ _ _ _ _ _)) (Or.inl rfl)
  | http n m =>
    simp only [Cell.actCall]
    split
    · exact h
    · exact h.call (adds_beginHttp _ _ _ _ _) (Or.inl rfl)
  | rpc addr q => exact h.call (adds_send _ (fun _ e => by cases e) addr q) (Or.inl rfl)
  | connect name client servers lease =>
    exact h.call ((adds_dropSearch _ _).trans (adds_searchOn _ c.fresh _ _)) (Or.inr rfl)
  | lock name op =>
    simp only [Cell.actCall]
    split
    · exact h
    · rename_i k s hk
      split
      · exact h
      · exact h.call (adds_call (c := (c.beginCall tag (.lock name k)).2) (client_of_client? hk)
          c.fresh op) (Or.inr rfl)
  | awaitExpiry name =>
    simp only [Cell.actCall]
    split
    · exact h
    · exact h.adds (adds_beginCall _ _ _)
  | program args => exact h.beginProgram tag args

theorem adds_abandon (c : Cell) (p : PendingCall) : Adds [] c (c.abandon p) := by
  have hc : Adds [] c { c with calls := c.calls.filter (·.id ≠ p.id) } :=
    .of_eq rfl rfl rfl rfl rfl (Nat.le_refl _)
  unfold Cell.abandon
  dsimp only
  refine hc.trans ?_
  split
  · exact adds_dropWaiter _ _
  · exact adds_dropWaiter _ _
  · exact adds_cancel _ _
  · exact (adds_dropSearch _ _).trans (adds_cancel _ _)
  · exact adds_abandonLock _ _ _
  · exact .refl _
  · have gone : ∀ d : Cell, Adds [] d
        { ((d.dropSearch p.id).cancel (.search p.id)).cancel (.program p.id) with
          programs := (((d.dropSearch p.id).cancel (.search p.id)).cancel
            (.program p.id)).programs.filter (·.id ≠ p.id) } := fun d =>
      (((adds_dropSearch d _).trans (adds_cancel _ _)).trans (adds_cancel _ _)).trans
        (adds_programs List.filter_sublist)
    split
    · exact (adds_abandonLock _ _ _).trans (gone _)
    · exact gone _

theorem adds_abort (c : Cell) (tag : String) : Adds [] c (c.abort tag).2 := by
  unfold Cell.abort
  split
  · exact .refl c
  · have hc : Adds [] c { c with tags := c.tags.erase tag } :=
      .of_eq rfl rfl rfl rfl rfl (Nat.le_refl _)
    dsimp only
    split
    · exact hc
    · exact hc.trans (adds_abandon _ _)

theorem adds_actStore (c : Cell) (n : Node) (s : StoreStep) : Adds [] c (c.actStore n s).2 := by
  have write : ∀ r, Adds [] c (actStore.write c r).2 := by
    intro r
    cases r <;> exact .of_eq rfl rfl rfl rfl rfl (Nat.le_refl _)
  cases s with
  | set | delete | join => exact write _
  | get | leads | leader => exact .refl c

theorem adds_actTable (c : Cell) (i : Nat) (v : Server) (s : TableStep) :
    Adds [] c (c.actTable i v s).2 := by
  cases s <;> exact .of_eq rfl rfl rfl rfl rfl (Nat.le_refl _)

theorem adds_actManager (c : Cell) (i : Nat) (v : Server) (s : ManagerStep) :
    Adds [] c (c.actManager i v s).2 := by
  cases s with
  | terminate y => exact .of_eq rfl rfl rfl rfl rfl (Nat.le_refl _)
  | create | live | find =>
    simp only [actManager]
    split <;> exact .of_eq rfl rfl rfl rfl rfl (Nat.le_refl _)

theorem adds_actSession (c : Cell) (i j : Nat) (v : Server) (t : Session) (s : SessionStep) :
    Adds [] c (c.actSession i j v t s).2 := by
  cases s with
  | refresh =>
    simp only [actSession]
    split <;> exact .of_eq rfl rfl rfl rfl rfl (Nat.le_refl _)
  | _ => exact .of_eq rfl rfl rfl rfl rfl (Nat.le_refl _)

theorem Single.act (h : Single c) (hs : Safe x c) {s : CellStep} (hsp : s.Spares x c) :
    Single (c.act s).2 := by
  cases s with
  | sleep | restart => exact hsp.elim
  | abort tag => exact h.adds (adds_abort c tag)
  | call tag s => exact h.actCall tag s
  | store n s =>
    simp only [Cell.act, onServer]
    split
    · exact h
    · exact h.adds (adds_actStore _ _ _)
  | table n s =>
    simp only [Cell.act, onServer]
    split
    · exact h
    · exact h.adds (adds_actTable _ _ _ _)
  | manager n s =>
    simp only [Cell.act, onServer]
    split
    · exact h
    · exact h.adds (adds_actManager _ _ _ _)
  | session handle s =>
    simp only [Cell.act]
    repeat' split
    · exact h
    · exact h
    · exact h
    · exact h.adds (adds_actSession _ _ _ _ _ _)
  | elect | stepDown | follow | addNode | cluster | latency | requests | printed | trap
  | clearTraps => exact h.adds (.of_eq rfl rfl rfl rfl rfl (Nat.le_refl _))
  | down n =>
    simp only [Cell.act, onSeat]
    split
    · exact h
    · exact h.adds (adds_down hs _)
  | up n =>
    simp only [Cell.act, onSeat]
    split
    · exact h
    · exact h.adds (adds_setUp c _ true)
  | crash n =>
    simp only [Cell.act, onSeat]
    split
    · exact h
    · split
      · have hc : Adds [] c { c with cluster := c.cluster.stepDown } :=
          .of_eq rfl rfl rfl rfl rfl (Nat.le_refl _)
        exact h.adds (hc.trans (adds_down (hs.cluster _) _))
      · exact h.adds (adds_down hs _)
  | close name =>
    simp only [Cell.act]
    split
    · exact h
    · rename_i k s hk
      exact h.adds (adds_close (client_of_client? hk))

theorem single_start (lease : LeaseConfig) (latency : Nat) (nodes : List (Node × Addr × Addr))
    (leader : Option Node) : Single (start lease latency nodes leader) := by
  refine start_induction ?_ (fun c n a l h => ?_) fun c n h => ?_
  · exact ⟨fun id => by simp [tally, dormant, errands], fun id _ => by simp [tally, dormant, errands]⟩
  · exact h.adds (.of_eq rfl rfl rfl rfl rfl (Nat.le_refl _))
  · exact h.adds (.of_eq rfl rfl rfl rfl rfl (Nat.le_refl _))

/-! ## No lock call is pending -/

/-- No lock call of that number is pending. -/
def Free (c : Cell) (id : Nat) : Prop :=
  ∀ (k : Nat) (s : ClientSession), c.clients[k]? = some s → ∀ d ∈ s.calls, d.id ≠ id

theorem free_of_tally (h : c.tally id = 0) : c.Free id := by
  intro k s hk d hd e
  have hpos : 0 < s.tally id := ClientSession.plays_iff.1 ⟨d, hd, e⟩
  -- the calls of one session are no more than those of all
  have ht := tally_setClient hk ({ s with calls := [] }, []) id
  have hz : ClientSession.Step.tally ({ s with calls := [] }, []) id = 0 := rfl
  omega

/-- A program that is told something has no lock call pending. -/
theorem Single.free_told (h : Single c) {e : Event} {rest : List Mail}
    (hm : c.mail = .event id e :: rest) : c.Free id :=
  free_of_tally (c := { c with mail := rest }) (h.told hm (decide_eq_true rfl)).1

/-- Nor has one that sleeps, or waits for its session to expire. -/
theorem Single.free_idle (h : Single c) {p : ProgramRun} (hp : p ∈ c.programs)
    (hd : p.task.dormant = true) : c.Free p.id :=
  free_of_tally (h.idle hp hd).1

end Cell

end LockCell
