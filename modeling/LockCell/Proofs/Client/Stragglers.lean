import LockCell.Proofs.Client.Inbox

/-
  LockCell.Proofs.Client.Stragglers — keep-alives that come late do not count.

  What a late answer says does not matter: if the same comes in the same order, and only the
  late answers say something else, the session takes the same steps (`Retold`). Only its inbox
  tells the difference.

  Nor does it matter that one comes. A course with late answers has a twin without, whose
  session has the same phase, lease, server and schedule, and has sent the same (`Twin`). The
  twin takes the same steps, but for the looks at what came late. Such a look only has the
  session think of its next keep-alive, and that it does by itself at that instant, if one is
  due. There is one exception: at the instant at which the lease has run out the session would
  rather fall in jeopardy, and whatever wakes it before that lets a keep-alive out that is due
  (`Brink`). Two of its alarms go off at that instant, and the twin then minds the other one
  first (`Solo.wake`).
-/

namespace LockCell

/-- Two answers to one keep-alive, which are the same if they count. -/
structure ClientSession.Retold (s : ClientSession) (a b : Nat × Except Error KeepAlive) : Prop where
  le : a.1 ≤ s.generation
  number : b.1 = a.1
  same : s.watch = .renewing → a.1 = s.generation → b = a

/-- They stay that. -/
theorem ClientSession.Retold.of_awaits {s : ClientSession} {now : Nat} {x : Step}
    {a b : Nat × Except Error KeepAlive} (h : s.Retold a b) (ha : s.Awaits now x) :
    x.1.Retold a b := by
  cases ha with
  | goesOn hw hg => exact ⟨hg ▸ h.le, h.number, fun hr he => h.same (hw ▸ hr) (hg ▸ he)⟩
  | stops _ hw hg => exact ⟨hg ▸ h.le, h.number, fun hr => absurd hr hw⟩
  | recovers =>
    rw [recover_eq]
    exact ⟨Nat.le_succ_of_le h.le, h.number,
      fun _ he => absurd (he ▸ h.le) (Nat.not_succ_le_self _)⟩

namespace Career

variable {g : Nat} {f : LeaseConfig} {x x' y w : Career} {e : Event} {st : ClientSession.Step}
  {z : Nat × Sent} {r : Except Error Response} {i j : List (Nat × Except Error KeepAlive)}

theorem step?_of_made? (hst : e.made? x.session x.now = some st) (hh : x.hear? e = some x') :
    x.step? g e = some (x'.take st) := by
  cases e with
  | pass n => cases hst
  | goOn | answer | call | abandon | close => simp [step?, heed?, hst, hh]

/-- An answer to a plain keep-alive goes to the inbox. -/
theorem made?_answer {k : Nat} (hk : z.2.1 = .keepAlive k)
    (hst : Event.made? x.session x.now (.answer z r) = some st) :
    st = (x.session.post (x.session.inbox ++ [(k, ClientSession.keptOf r)]), []) := by
  rw [← Option.some.inj hst]
  simp only [hk]
  rfl

/-! ## Sessions that differ in their inboxes -/

/-- The same session with the inbox `i`, which awaits the same and has sent the same. -/
structure Like (i : List (Nat × Except Error KeepAlive)) (x x' : Career) : Prop where
  session : x'.session = x.session.post i
  now : x'.now = x.now
  out : x'.out = x.out
  sent : x'.sent = x.sent

theorem Like.refl (x : Career) : Like x.session.inbox x x := ⟨rfl, rfl, rfl, rfl⟩

theorem Like.hear? (h : Like i x x') (hh : x.hear? e = some w) :
    ∃ w', x'.hear? e = some w' ∧ Like i w w' ∧
      (x'.heard.map Prod.fst = x.heard.map Prod.fst →
        w'.heard.map Prod.fst = w.heard.map Prod.fst) := by
  cases e with
  | answer z r =>
    obtain ⟨hz, hh⟩ := Option.ite_none_right_eq_some.1 hh
    cases hh
    refine ⟨_, if_pos (h.out ▸ hz), ⟨h.session, h.now, ?_, h.sent⟩, fun he => ?_⟩
    · rw [h.out]
    · simp [he]
  | goOn | call | abandon | close | pass =>
    cases hh
    exact ⟨x', rfl, h, id⟩

/-- The same step, but for the inboxes. -/
theorem Like.take (h : Like i x x') (st : ClientSession.Step)
    (j : List (Nat × Except Error KeepAlive)) :
    Like j (x.take st) (x'.take (st.1.post j, st.2)) := by
  refine ⟨rfl, h.now, ?_, ?_⟩
  · simp only [Career.take, h.out, h.now]
  · simp only [Career.take, h.sent, h.now]

/-- What comes without a look at the inbox comes to both. -/
theorem Like.made?_of_blind (h : Like i x x') (hb : x.session.Blind e)
    (hst : e.made? x.session x.now = some st) :
    e.made? x'.session x'.now = some (st.1.post i, st.2) := by
  rw [h.session, h.now]
  exact ClientSession.made?_post hb i hst

/-- If their inboxes are empty they are the same, and stay the same. -/
theorem Like.made?_of_empty (ho : x.Orderly g f) (h : Like [] x x') (hi : x.session.inbox = [])
    (hst : x.session.step? x.now = some st) :
    Event.made? x'.session x'.now .goOn = some (st.1.post [], st.2) ∧ st.1.inbox = [] := by
  have hin : st.1.inbox = [] := by
    have hsub := (ClientSession.fares_step? ho.tidy hst).inbox
    rw [hi] at hsub
    exact List.eq_nil_iff_forall_not_mem.2 fun z hz => List.not_mem_nil (hsub z hz)
  refine ⟨?_, hin⟩
  rw [h.session, h.now, ← hi, ClientSession.post_inbox, hi, ← hin, ClientSession.post_inbox]
  exact hst

/-- Both look at an answer to the same keep-alive, and the same answer if it counts. -/
theorem Like.made?_of_told {k : Nat} {r r' : Except Error KeepAlive}
    {rest left : List (Nat × Except Error KeepAlive)} (h : Like ((k, r') :: left) x x')
    (hw : x.session.watch = .renewing) (hc : x.session.closed = false)
    (hi : x.session.inbox = (k, r) :: rest) (hk : k = x.session.generation → r' = r)
    (hst : x.session.step? x.now = some st) :
    Event.made? x'.session x'.now .goOn = some (st.1.post left, st.2) ∧ st.1.inbox = rest := by
  have htake := ClientSession.take_post (x.session.post rest) k r x.now
  rw [ClientSession.step?_of_inbox hw hc hi] at hst
  cases hst
  refine ⟨?_, congrArg (fun y => y.1.inbox) (htake rest)⟩
  rw [← htake, h.session, h.now]
  refine (ClientSession.step?_of_inbox (s := x.session.post ((k, r') :: left)) hw hc rfl).trans
    (congrArg some ?_)
  rw [ClientSession.post_post, ClientSession.post_post]
  by_cases hk' : k = x.session.generation
  · rw [hk hk']
  · exact (ClientSession.take_of_stale (s := x.session.post left) hk' r').trans
      (ClientSession.take_of_stale (s := x.session.post left) hk' r).symm

/-- An answer to the keep-alive that is awaited comes to both. -/
theorem Like.made?_of_answer (h : Like i x x') {k : Nat} (hk : z.2.1 = .keepAlive k)
    (r : Except Error Response) : Event.made? x'.session x'.now (.answer z r) =
      some (x.session.post (i ++ [(k, ClientSession.keptOf r)]), []) := by
  rw [h.session]
  show some ((x.session.post i).answer z.2.1 r x'.now) = _
  rw [hk]
  rfl

theorem Like.settled (h : Like i x x')
    (hi : x.session.inbox = [] → x.session.watch = .renewing → i = []) (hs : x.Settled) :
    x'.Settled := by
  unfold Settled at hs ⊢
  rw [h.session, h.now]
  by_cases hw : x.session.watch = .renewing ∧ x.session.closed = false
  · obtain ⟨hw, hc⟩ := hw
    cases hin : x.session.inbox with
    | nil =>
      rw [hi hin hw, ← hin, ClientSession.post_inbox]
      exact hs
    | cons z rest =>
      rw [ClientSession.step?_of_inbox hw hc hin] at hs
      cases hs
  · rw [ClientSession.step?_post (fun hr => by simpa [hr] using hw), hs]
    rfl

theorem Like.pass (h : Like i x x') {n : Nat} (hs : x'.Settled)
    (ha : ∀ t ∈ x.session.alarms, t ≤ x.now ∨ x.now + n * g ≤ Clock.ceil g t) :
    ∃ y', x'.step? g (.pass n) = some y' ∧ Like i { x with now := x.now + n * g } y' ∧
      y'.heard = x'.heard := by
  refine ⟨{ x' with now := x'.now + n * g }, if_pos ⟨hs, ?_⟩, ⟨h.session, ?_, h.out, h.sent⟩, rfl⟩
  · rw [h.now]
  · rw [h.session, h.now]
    exact ha

/-! ## Whatever the late answers say -/

/-- The same comes, but an answer that comes late may say something else. -/
inductive Turn.Retold : Turn → Turn → Prop
  | own (e : Event) : Retold (.own e) (.own e)
  | late (z : Nat × Sent) (r r' : Except Error Response) : Retold (.late z r) (.late z r')

/-- The session has heard of the same keep-alives, and the same of those that count. -/
structure Retold (i : List (Nat × Except Error KeepAlive)) (x x' : Career) : Prop
    extends Like i x x' where
  heard : x'.heard.map Prod.fst = x.heard.map Prod.fst
  inbox : List.Forall₂ x.session.Retold x.session.inbox i

theorem Retold.refl (ho : x.Orderly g f) : Retold x.session.inbox x x where
  toLike := .refl x
  heard := rfl
  inbox := List.forall₂_same.2 fun a ha => ⟨ho.tidy.inboxLe a ha, rfl, fun _ _ => rfl⟩

/-- What is left in the inboxes after a step stays retold. -/
theorem Like.retold {w' : Career} (h : Like i w w')
    (hh : w'.heard.map Prod.fst = w.heard.map Prod.fst) (ha : x.session.Awaits x.now st)
    (hj : List.Forall₂ x.session.Retold st.1.inbox j) :
    Retold j (w.take st) (w'.take (st.1.post j, st.2)) where
  toLike := h.take st j
  heard := hh
  inbox := hj.imp fun _ _ hr => hr.of_awaits ha

theorem Retold.blind (h : Retold i x x') (hb : x.session.Blind e)
    (hst : e.made? x.session x.now = some st) (hw : x.hear? e = some w) :
    ∃ y' j, x'.step? g e = some y' ∧ Retold j (w.take st) y' := by
  obtain ⟨w', hw', hl, hh⟩ := h.hear? hw
  refine ⟨_, i, step?_of_made? (h.made?_of_blind hb hst) hw', ?_⟩
  refine hl.retold (hh h.heard) (ClientSession.awaits_made? hst) ?_
  rw [ClientSession.inbox_made? hb hst]
  exact h.inbox

/-- Both look at an answer to the same keep-alive. -/
theorem Retold.look (ho : x.Orderly g f) (h : Retold i x x') (hw : x.session.watch = .renewing)
    (hc : x.session.closed = false) (hst : x.session.step? x.now = some st) :
    ∃ y' j, x'.step? g .goOn = some y' ∧ Retold j (x.take st) y' := by
  have ha := ClientSession.awaits_step? hst
  obtain ⟨hl, hh, hf⟩ := h
  cases hi : x.session.inbox with
  | nil =>
    rw [hi] at hf
    cases hf
    obtain ⟨hst', hin⟩ := hl.made?_of_empty ho hi hst
    refine ⟨_, [], step?_of_made? hst' rfl, hl.retold hh ha ?_⟩
    rw [hin]
    exact .nil
  | cons a rest =>
    obtain ⟨k, r⟩ := a
    rw [hi] at hf
    cases hf with
    | @cons _ b _ left hb hrest =>
      obtain ⟨k', r'⟩ := b
      obtain rfl : k' = k := hb.number
      obtain ⟨hst', hin⟩ := hl.made?_of_told hw hc hi
        (fun he => congrArg Prod.snd (hb.same hw he)) hst
      refine ⟨_, left, step?_of_made? hst' rfl, hl.retold hh ha ?_⟩
      rw [hin]
      exact hrest

theorem Retold.inbox_append (h : Retold i x x') {a b : Nat × Except Error KeepAlive}
    (hab : x.session.Retold a b) :
    List.Forall₂ x.session.Retold (x.session.inbox ++ [a]) (i ++ [b]) :=
  List.rel_append h.inbox (.cons hab .nil)

/-- An answer to the keep-alive that is awaited comes to both. -/
theorem Retold.told (ha : x.Accounted) (h : Retold i x x') (hz : z.2.1.plain = true)
    (hst : Event.made? x.session x.now (.answer z r) = some st)
    (hh : x.hear? (.answer z r) = some w) :
    ∃ y' j, x'.step? g (.answer z r) = some y' ∧ Retold j (w.take st) y' := by
  obtain ⟨k, hk⟩ := Ask.plain_iff.1 hz
  obtain ⟨-, hg⟩ := ha.awaited z ((hears_of_hear? hh).answer z r rfl).1 k hk
  obtain ⟨w', hw', hl, hheard⟩ := h.hear? hh
  have hw := ClientSession.awaits_made? hst
  obtain rfl := made?_answer hk hst
  refine ⟨_, _, step?_of_made? (h.made?_of_answer hk r) hw', hl.retold (hheard h.heard) hw ?_⟩
  exact h.inbox_append ⟨Nat.le_of_eq hg, rfl, fun _ _ => rfl⟩

/-- A late answer comes to both. -/
theorem Retold.late (ha : x.Accounted) (h : Retold i x x') (r' : Except Error Response)
    (hs : x.turn? g (.late z r) = some y) :
    ∃ y' j, x'.turn? g (.late z r') = some y' ∧ Retold j y y' := by
  obtain ⟨hm, k, hk, rfl⟩ := turn?_late hs
  obtain ⟨n, hn, hle, hlt⟩ := ha.stale hm
  obtain rfl : k = n := Ask.keepAlive.inj (hk.symm.trans hn)
  have hm' : x'.Missed z := by
    unfold Missed at hm ⊢
    rw [h.out, h.sent, h.heard]
    exact hm
  have hab : x.session.Retold (k, ClientSession.keptOf r) (k, ClientSession.keptOf r') :=
    ⟨hle, rfl, fun hw he => absurd he (Nat.ne_of_lt (hlt hw))⟩
  refine ⟨_, i ++ [(k, ClientSession.keptOf r')], if_pos hm', ⟨?_, h.now, h.out, h.sent⟩, ?_, ?_⟩
  · rw [h.session, hk]
    rfl
  · simp [h.heard]
  · exact (h.inbox_append hab).imp fun _ _ hr => ⟨hr.le, hr.number, hr.same⟩

theorem Retold.own (ho : x.Orderly g f) (ha : x.Accounted) (h : Retold i x x')
    (hs : x.step? g e = some y) : ∃ y' j, x'.step? g e = some y' ∧ Retold j y y' := by
  obtain ⟨n, rfl, hq, hal, rfl⟩ | ⟨st, w, hst, hh, rfl⟩ := made_cases hs
  · have hq' : x'.Settled := h.settled (fun hi _ => ?_) hq
    · obtain ⟨y', hy, hl, hheard⟩ := h.pass hq' hal
      exact ⟨y', i, hy, hl, hheard ▸ h.heard, h.inbox⟩
    · simpa [hi] using h.inbox
  · rcases x.session.blind_or e with hb | ⟨rfl, hw, hc⟩ | ⟨z, r, rfl, hz⟩
    · exact h.blind hb hst hh
    · cases hh
      exact h.look ho hw hc hst
    · exact h.told ha hz hst hh

theorem Retold.course (ho : x.Orderly g f) (ha : x.Accounted) (h : Retold i x x')
    {ts ts' : List Turn} (hts : List.Forall₂ Turn.Retold ts ts') (hr : x.course? g ts = some y) :
    ∃ y' j, x'.course? g ts' = some y' ∧ Retold j y y' := by
  induction hts generalizing x x' i with
  | nil =>
    cases hr
    exact ⟨x', i, rfl, h⟩
  | cons ht _ ih =>
    obtain ⟨w, hw, hrest⟩ := Option.bind_eq_some_iff.1 hr
    obtain ⟨how, haw⟩ := accounted_turn ho ha hw
    cases ht with
    | own e =>
      obtain ⟨w', j, hw', hrw⟩ := h.own ho ha hw
      obtain ⟨y', k, hy', hry⟩ := ih how haw hrw hrest
      exact ⟨y', k, Option.bind_eq_some_iff.2 ⟨w', hw', hy'⟩, hry⟩
    | late z r r' =>
      obtain ⟨w', j, hw', hrw⟩ := h.late ha r' hw
      obtain ⟨y', k, hy', hry⟩ := ih how haw hrw hrest
      exact ⟨y', k, Option.bind_eq_some_iff.2 ⟨w', hw', hy'⟩, hry⟩

/-! ## Whether they come -/

/-- The lease has run out and the session has yet to see it, while a keep-alive is due. -/
structure Brink (x : Career) : Prop where
  renewing : x.session.watch = .renewing
  stays : x.session.closed = false
  lapsed : x.session.deadline ≤ x.now
  due : x.session.Due x.now

instance (x : Career) : Decidable x.Brink :=
  decidable_of_iff (x.session.watch = .renewing ∧ x.session.closed = false ∧
      x.session.deadline ≤ x.now ∧ x.session.Due x.now)
    ⟨fun h => ⟨h.1, h.2.1, h.2.2.1, h.2.2.2⟩, fun h => ⟨h.1, h.2, h.3, h.4⟩⟩

/-- What can come if nothing comes late. -/
inductive Solo where
  | own (e : Event)
  /-- The lease has run out and a keep-alive is due: the watch minds that first. -/
  | wake

def solo? (g : Nat) (x : Career) : Solo → Option Career
  | .own e => x.step? g e
  | .wake => if x.Brink then some (x.take (x.session.renew x.now)) else none

def alone? (g : Nat) (x : Career) (es : List Solo) : Option Career := es.foldlM (solo? g) x

theorem alone?_own (h : x.step? g e = some y) : x.alone? g [.own e] = some y := by
  simp [alone?, solo?, h]

/-- A session that knows nothing of what came late, and is the same otherwise. -/
structure Twin (i : List (Nat × Except Error KeepAlive)) (x x' : Career) : Prop
    extends Like i x x' where
  renewing : x.session.watch = .renewing →
    i = x.session.inbox.filter (·.1 = x.session.generation)
  searching : x.session.watch = .searching → i = []

theorem Twin.blind (ho : x.Orderly g f) (h : Twin i x x') (hb : x.session.Blind e)
    (hst : e.made? x.session x.now = some st) (hw : x.hear? e = some w) :
    ∃ y', x'.step? g e = some y' ∧ Twin i (w.take st) y' := by
  obtain ⟨w', hw', hl, -⟩ := h.hear? hw
  have hin := ClientSession.inbox_made? hb hst
  refine ⟨_, step?_of_made? (h.made?_of_blind hb hst) hw', hl.take st i, fun hr => ?_, fun hs => ?_⟩
  · show i = st.1.inbox.filter (·.1 = st.1.generation)
    rw [hin]
    rcases ClientSession.watch_of_blind hb hst with ⟨hwatch, hg⟩ | ho' | ⟨hs, hg⟩
    · rw [hg]
      exact h.renewing (hwatch ▸ hr)
    · cases hr.symm.trans ho'
    · -- the search is over, and what came late is of the generation before
      rw [h.searching hs, hg]
      refine (List.filter_eq_nil_iff.2 fun a ha => ?_).symm
      have hle := ho.tidy.inboxLe a ha
      simp only [decide_eq_true_eq]
      omega
  · rcases ClientSession.watch_of_blind hb hst with ⟨hwatch, -⟩ | ho' | ⟨hs', -⟩
    · exact h.searching (hwatch ▸ hs)
    · cases hs.symm.trans ho'
    · exact h.searching hs'

/-- An answer to the keep-alive that is awaited comes to the twin as well. -/
theorem Twin.told (ha : x.Accounted) (h : Twin i x x') (hz : z.2.1.plain = true)
    (hst : Event.made? x.session x.now (.answer z r) = some st)
    (hh : x.hear? (.answer z r) = some w) :
    ∃ y' j, x'.step? g (.answer z r) = some y' ∧ Twin j (w.take st) y' := by
  obtain ⟨k, hk⟩ := Ask.plain_iff.1 hz
  obtain ⟨hr, hg⟩ := ha.awaited z ((hears_of_hear? hh).answer z r rfl).1 k hk
  obtain ⟨w', hw', hl, -⟩ := h.hear? hh
  obtain rfl := made?_answer hk hst
  refine ⟨_, _, step?_of_made? (h.made?_of_answer hk r) hw', hl.take _ _, fun _ => ?_, fun hs => ?_⟩
  · show i ++ [_] = (x.session.inbox ++ [_]).filter (·.1 = x.session.generation)
    rw [List.filter_append, ← h.renewing hr]
    simp [hg]
  · cases hr.symm.trans hs

/-- Whatever comes late, the twin does not notice. -/
theorem Twin.late (ha : x.Accounted) (h : Twin i x x') (hs : x.turn? g (.late z r) = some y) :
    Twin i y x' := by
  obtain ⟨hm, k, hk, rfl⟩ := turn?_late hs
  obtain ⟨n, hn, -, hlt⟩ := ha.stale hm
  obtain rfl : k = n := Ask.keepAlive.inj (hk.symm.trans hn)
  refine ⟨⟨h.session, h.now, h.out, h.sent⟩, fun hw => ?_, h.searching⟩
  simp [h.renewing hw, Nat.ne_of_lt (hlt hw)]

/-- With an empty inbox the twin is the same. -/
theorem Twin.goOn_empty (ho : x.Orderly g f) (h : Twin i x x')
    (hw : x.session.watch = .renewing) (hi : x.session.inbox = [])
    (hst : x.session.step? x.now = some st) :
    ∃ y' j, x'.step? g .goOn = some y' ∧ Twin j (x.take st) y' := by
  obtain rfl : i = [] := by rw [h.renewing hw, hi, List.filter_nil]
  have hl : Like [] x x' := h.toLike
  obtain ⟨hst', hin⟩ := hl.made?_of_empty ho hi hst
  refine ⟨_, [], step?_of_made? hst' rfl, hl.take st [], fun _ => ?_, fun _ => rfl⟩
  show [] = st.1.inbox.filter _
  rw [hin]
  rfl

/-- The answer to a keep-alive of the present generation is looked at by both. -/
theorem Twin.goOn_told (h : Twin i x x') (hw : x.session.watch = .renewing)
    (hc : x.session.closed = false) {r : Except Error KeepAlive}
    {rest : List (Nat × Except Error KeepAlive)}
    (hi : x.session.inbox = (x.session.generation, r) :: rest)
    (hst : x.session.step? x.now = some st) :
    ∃ y' j, x'.step? g .goOn = some y' ∧ Twin j (x.take st) y' := by
  let left := rest.filter (·.1 = x.session.generation)
  have hl : Like ((x.session.generation, r) :: left) x x' := by
    have hleft := h.renewing hw
    rw [hi, List.filter_cons_of_pos (by simp)] at hleft
    exact hleft ▸ h.toLike
  obtain ⟨hst', hin⟩ := hl.made?_of_told hw hc hi (fun _ => rfl) hst
  rw [ClientSession.step?_of_inbox hw hc hi] at hst
  have hcases := ClientSession.take_cases (x.session.post rest) x.session.generation r x.now
  rw [Option.some.inj hst] at hcases
  refine ⟨_, left, step?_of_made? hst' rfl, hl.take st left, fun hr => ?_, fun hs => ?_⟩
  · show left = st.1.inbox.filter (·.1 = st.1.generation)
    rcases hcases with ⟨-, -, hg⟩ | ⟨ho, -⟩
    · rw [hin, hg]
      rfl
    · cases hr.symm.trans ho
  · rcases hcases with ⟨hw', -, -⟩ | ⟨ho, -⟩
    · cases (hw'.symm.trans hs).symm.trans hw
    · cases hs.symm.trans ho

/-- What came late is looked at by one of them only, which then thinks of its next keep-alive; if
one is due the other does that as well, at the brink not by itself. -/
theorem Twin.goOn_stale (ha : x.Accounted) (h : Twin i x x') (hw : x.session.watch = .renewing)
    (hc : x.session.closed = false) {k : Nat} {r : Except Error KeepAlive}
    {rest : List (Nat × Except Error KeepAlive)} (hi : x.session.inbox = (k, r) :: rest)
    (hk : k ≠ x.session.generation) (hst : x.session.step? x.now = some st) :
    ∃ es y' j, x'.alone? g es = some y' ∧ Twin j (x.take st) y' ∧ (.wake ∈ es → x.Brink) := by
  have hleft : i = rest.filter (·.1 = x.session.generation) := by
    rw [h.renewing hw, hi, List.filter_cons_of_neg (by simpa using hk)]
  have hst : st = ((x.session.renew x.now).1.post rest, (x.session.renew x.now).2) := by
    rw [ClientSession.step?_of_inbox hw hc hi] at hst
    rw [← ClientSession.renew_post, ← Option.some.inj hst]
    exact ClientSession.take_of_stale (s := x.session.post rest) hk r
  subst hst
  by_cases hd : x.session.Due x.now
  · -- so no keep-alive of this generation is out, nor answered
    have hnil : i = [] := by
      rw [h.renewing hw]
      exact (ha.lone hw).filter_of_due (by simp [hw]) hd
    have hs : x'.session = x.session.post [] := hnil ▸ h.session
    have ht : Twin [] (x.take ((x.session.renew x.now).1.post rest, (x.session.renew x.now).2))
        (x'.take (x'.session.renew x'.now)) := by
      rw [hs, h.now, ClientSession.renew_post]
      refine ⟨h.take (_, _) [], fun _ => ?_, fun _ => rfl⟩
      rw [ClientSession.renew_of_due hd]
      exact hnil.symm.trans hleft
    -- by itself the twin would mind its lease first
    by_cases hl : x.session.deadline ≤ x.now
    · have hb : x'.Brink := by
        refine ⟨?_, ?_, ?_, ?_⟩ <;> rw [hs]
        · exact hw
        · exact hc
        · rw [h.now]
          exact hl
        · rw [h.now]
          exact hd
      exact ⟨[.wake], _, [], by simp [alone?, solo?, hb], ht, fun _ => ⟨hw, hc, hl, hd⟩⟩
    · have hgo : Event.made? x'.session x'.now .goOn = some (x'.session.renew x'.now) := by
        rw [hs, h.now]
        exact ClientSession.step?_of_due hw hc rfl (Nat.lt_of_not_le hl) hd
      exact ⟨[.own .goOn], _, [], alone?_own (step?_of_made? hgo rfl), ht, by simp⟩
  · refine ⟨[], x', i, rfl, ?_, by simp⟩
    rw [ClientSession.renew_of_not_due hd]
    refine ⟨⟨h.session, h.now, ?_, ?_⟩, fun _ => hleft, h.searching⟩
    · simp [Career.take, h.out]
    · simp [Career.take, h.sent]

theorem Twin.goOn (ho : x.Orderly g f) (ha : x.Accounted) (h : Twin i x x')
    (hw : x.session.watch = .renewing) (hc : x.session.closed = false)
    (hst : x.session.step? x.now = some st) :
    ∃ es y' j, x'.alone? g es = some y' ∧ Twin j (x.take st) y' ∧ (.wake ∈ es → x.Brink) := by
  cases hi : x.session.inbox with
  | nil =>
    obtain ⟨y', j, hy, ht⟩ := h.goOn_empty ho hw hi hst
    exact ⟨_, y', j, alone?_own hy, ht, by simp⟩
  | cons z rest =>
    obtain ⟨k, r⟩ := z
    by_cases hk : k = x.session.generation
    · subst hk
      obtain ⟨y', j, hy, ht⟩ := h.goOn_told hw hc hi hst
      exact ⟨_, y', j, alone?_own hy, ht, by simp⟩
    · exact h.goOn_stale ha hw hc hi hk hst

/-- Whatever the session does or hears, its twin can come to the same. -/
theorem Twin.own (ho : x.Orderly g f) (ha : x.Accounted) (h : Twin i x x')
    (hs : x.step? g e = some y) :
    ∃ es y' j, x'.alone? g es = some y' ∧ Twin j y y' ∧ (.wake ∈ es → x.Brink) := by
  obtain ⟨n, rfl, hq, hal, rfl⟩ | ⟨st, w, hst, hh, rfl⟩ := made_cases hs
  · have hq' : x'.Settled := h.settled (fun hi hw => by rw [h.renewing hw, hi]; rfl) hq
    obtain ⟨y', hy, hl, -⟩ := h.pass hq' hal
    exact ⟨_, y', i, alone?_own hy, ⟨hl, h.renewing, h.searching⟩, by simp⟩
  · rcases x.session.blind_or e with hb | ⟨rfl, hw, hc⟩ | ⟨z, r, rfl, hz⟩
    · obtain ⟨y', hy, ht⟩ := h.blind (g := g) ho hb hst hh
      exact ⟨_, y', i, alone?_own hy, ht, by simp⟩
    · cases hh
      exact h.goOn ho ha hw hc hst
    · obtain ⟨y', j, hy, ht⟩ := h.told (g := g) ha hz hst hh
      exact ⟨_, y', j, alone?_own hy, ht, by simp⟩

/-- The course comes to a brink. -/
def Nears (g : Nat) (x : Career) (ts : List Turn) : Prop :=
  ∃ before w, before <+: ts ∧ x.course? g before = some w ∧ w.Brink

theorem nears_of_brink (h : x.Brink) (ts : List Turn) : x.Nears g ts :=
  ⟨[], x, List.nil_prefix, rfl, h⟩

theorem Nears.cons {t : Turn} {ts : List Turn} (ht : x.turn? g t = some w) (h : w.Nears g ts) :
    x.Nears g (t :: ts) := by
  obtain ⟨before, v, hp, hv, hb⟩ := h
  exact ⟨t :: before, v, List.cons_prefix_cons.2 ⟨rfl, hp⟩,
    Option.bind_eq_some_iff.2 ⟨w, ht, hv⟩, hb⟩

theorem Twin.course (ho : x.Orderly g f) (ha : x.Accounted) (h : Twin i x x') {ts : List Turn}
    (hr : x.course? g ts = some y) :
    ∃ es y' j, x'.alone? g es = some y' ∧ Twin j y y' ∧ (.wake ∈ es → x.Nears g ts) := by
  induction ts generalizing x x' i with
  | nil =>
    cases hr
    exact ⟨[], x', i, rfl, h, by simp⟩
  | cons t ts ih =>
    obtain ⟨w, hw, hrest⟩ := Option.bind_eq_some_iff.1 hr
    obtain ⟨how, haw⟩ := accounted_turn ho ha hw
    cases t with
    | own e =>
      obtain ⟨es, w', j, hes, htw, hb⟩ := h.own ho ha hw
      obtain ⟨es', y', k, hes', ht, hn⟩ := ih how haw htw hrest
      refine ⟨es ++ es', y', k, ?_, ht, fun hwake => ?_⟩
      · unfold alone? at hes hes' ⊢
        rw [List.foldlM_append, hes]
        exact hes'
      · rcases List.mem_append.1 hwake with hwake | hwake
        · exact nears_of_brink (hb hwake) _
        · exact (hn hwake).cons hw
    | late z r =>
      obtain ⟨es, y', k, hes, ht, hn⟩ := ih how haw (h.late ha hw) hrest
      exact ⟨es, y', k, hes, ht, fun hwake => (hn hwake).cons hw⟩

end Career

end LockCell
