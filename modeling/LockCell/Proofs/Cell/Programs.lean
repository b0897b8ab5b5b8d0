import LockCell.Cell.Run
import LockCell.Proofs.Client.Calls
import LockCell.Proofs.Client.Program

/-
  LockCell.Proofs.Cell.Programs — programs that have yet to get their first session.

  Before there is a client session of a client, a program of that client has none, makes no
  lock call and is told of none, so it does not cool down to look for another session
  (`Awaits`). Client sessions stay once they are there (`Stay`).
-/

namespace LockCell

/-- The lock call that a mail tells the end of. -/
def Mail.answers? : Mail → Option Nat
  | .effect _ (.finish id _) => some id
  | .event id (.answered _) => some id
  | _ => none

theorem answers?_effect {i id : Nat} {e : Effect} (h : (Mail.effect i e).answers? = some id) :
    ∃ r, e = .finish id r := by
  cases e with
  | send | cancel => cases h
  | finish j r =>
    cases h
    exact ⟨r, rfl⟩

namespace Cell

/-- There is no client session of this client. -/
def Unborn (c : Cell) (x : Client) : Prop :=
  ∀ (i : Nat) (s : ClientSession), c.clients[i]? = some s → s.client ≠ x

/-- No two client sessions are of this client. -/
def Lone (c : Cell) (x : Client) : Prop :=
  ∀ (i j : Nat) (s t : ClientSession), c.clients[i]? = some s → c.clients[j]? = some t →
    s.client = x → t.client = x → i = j

/-- The lock call of this number is pending, or its end is in the mail. -/
def Plays (c : Cell) (id : Nat) : Prop :=
  (∃ (i : Nat) (s : ClientSession), c.clients[i]? = some s ∧ s.Plays id) ∨
    ∃ m ∈ c.mail, m.answers? = some id

structure Awaits (x : Client) (c : Cell) : Prop where
  ids : (c.programs.map ProgramRun.id).Nodup
  idLt : ∀ p ∈ c.programs, p.id < c.fresh
  playLt : ∀ id, c.Plays id → id < c.fresh
  searching : ∀ r ∈ c.searches, r.name = none → ∀ p ∈ c.programs, p.id = r.id →
    r.search.config.client = p.program.config.client
  waiting : c.Unborn x → ∀ p ∈ c.programs, p.program.config.client = x →
    p.program.stage ≠ .cooling ∧ p.client = none ∧ ¬ c.Plays p.id

variable {x : Client} {c c' : Cell}

/-! ## Client sessions stay -/

/-- Client sessions stay in their places, under their clients' names. -/
def Stay (c c' : Cell) : Prop :=
  ∀ (i : Nat) (s : ClientSession), c.clients[i]? = some s →
    ∃ t : ClientSession, c'.clients[i]? = some t ∧ t.client = s.client

theorem Stay.unborn (h : Stay c c') (hu : c'.Unborn x) : c.Unborn x := by
  intro i s hi
  obtain ⟨t, ht, e⟩ := h i s hi
  exact e ▸ hu i t ht

theorem Stay.lone (h : Stay c c') (hl : c'.Lone x) : c.Lone x := by
  intro i j s u hi hj hs hu
  obtain ⟨t, ht, e⟩ := h i s hi
  obtain ⟨t', ht', e'⟩ := h j u hj
  exact hl i j t t' ht ht' (e.trans hs) (e'.trans hu)

theorem stay_of_eq (h : c'.clients = c.clients) : Stay c c' :=
  fun _ s hi => ⟨s, h ▸ hi, rfl⟩

theorem clients_setClient {i : Nat} {s : ClientSession} (hi : c.clients[i]? = some s)
    (st : ClientSession.Step) (j : Nat) :
    (c.setClient i st).clients[j]? = if j = i then some st.1 else c.clients[j]? := by
  have hlt : i < c.clients.size := (Array.getElem?_eq_some_iff.1 hi).1
  simp only [setClient, Array.getElem?_setIfInBounds, hlt, eq_comm (a := i)]
  simp

theorem stay_setClient {i : Nat} {s : ClientSession} (hi : c.clients[i]? = some s)
    {st : ClientSession.Step} (hc : st.1.client = s.client) : Stay c (c.setClient i st) := by
  intro j u hj
  rw [clients_setClient hi]
  by_cases e : j = i
  · subst e
    rw [hi] at hj
    cases hj
    exact ⟨st.1, if_pos rfl, hc⟩
  · exact ⟨u, by rw [if_neg e, hj], rfl⟩

theorem stay_push (c : Cell) (n : ClientSession) :
    Stay c { c with clients := c.clients.push n } := by
  intro j u hj
  have hlt := (Array.getElem?_eq_some_iff.1 hj).1
  refine ⟨u, ?_, rfl⟩
  show (c.clients.push n)[j]? = some u
  rw [Array.getElem?_push, if_neg (by omega), hj]

/-! ## Programs wait -/

/-- No call begins and no program changes. -/
theorem Awaits.of (h : Awaits x c) (hu : Stay c c')
    (hp : c'.programs.Sublist c.programs)
    (hs : ∀ r ∈ c'.searches, r ∈ c.searches ∨ (r.name = none → ∀ p ∈ c.programs, p.id = r.id →
      r.search.config.client = p.program.config.client))
    (hpl : ∀ id, c'.Plays id → c.Plays id) (hf : c.fresh ≤ c'.fresh) : Awaits x c' where
  ids := h.ids.sublist (hp.map _)
  idLt p hm := Nat.lt_of_lt_of_le (h.idLt p (hp.mem hm)) hf
  playLt id hid := Nat.lt_of_lt_of_le (h.playLt id (hpl id hid)) hf
  searching r hr hn p hm hid := by
    rcases hs r hr with hr | hr
    · exact h.searching r hr hn p (hp.mem hm) hid
    · exact hr hn p (hp.mem hm) hid
  waiting hu' p hm hx := by
    obtain ⟨hst, hc, hid⟩ := h.waiting (hu.unborn hu') p (hp.mem hm) hx
    exact ⟨hst, hc, fun hpl' => hid (hpl _ hpl')⟩

/-- What concerns neither the clients nor the programs. -/
theorem Awaits.of_eq (h : Awaits x c) (hc : c'.clients = c.clients) (hm : c'.mail = c.mail)
    (hs : c'.searches = c.searches) (hp : c'.programs = c.programs) (hf : c'.fresh = c.fresh) :
    Awaits x c' := by
  refine h.of (stay_of_eq hc) (hp ▸ .refl _) (fun r hr => Or.inl (hs ▸ hr)) ?_
    (Nat.le_of_eq hf.symm)
  intro id hid
  unfold Plays at hid
  rw [hc, hm] at hid
  exact hid

/-- A client session takes a step, in which at most a call begins that is none of a program
that waits for its first session. -/
theorem Awaits.setClient (h : Awaits x c) {i : Nat} {s : ClientSession}
    (hi : c.clients[i]? = some s) {st : ClientSession.Step} (hc : st.1.client = s.client)
    (hp : ∀ id, st.Plays id → s.Plays id ∨ (id < c.fresh ∧ (c.Unborn x → ∀ p ∈ c.programs,
      p.program.config.client = x → p.id ≠ id))) : Awaits x (c.setClient i st) := by
  have hget := clients_setClient hi st
  have hu := stay_setClient hi hc
  have plays : ∀ id, (c.setClient i st).Plays id → c.Plays id ∨ (id < c.fresh ∧
      (c.Unborn x → ∀ p ∈ c.programs, p.program.config.client = x → p.id ≠ id)) := by
    intro id hq
    rcases hq with ⟨j, t, hj, ht⟩ | ⟨m, hm, ha⟩
    · rw [hget] at hj
      split at hj
      · cases hj
        rcases hp id (Or.inl ht) with hs | hs
        · exact Or.inl (Or.inl ⟨i, s, hi, hs⟩)
        · exact Or.inr hs
      · exact Or.inl (Or.inl ⟨j, t, hj, ht⟩)
    · rcases List.mem_append.1 hm with hm | hm
      · exact Or.inl (Or.inr ⟨m, hm, ha⟩)
      · obtain ⟨e, he, rfl⟩ := List.mem_map.1 hm
        obtain ⟨r, rfl⟩ := answers?_effect ha
        rcases hp id (Or.inr ⟨r, he⟩) with hs | hs
        · exact Or.inl (Or.inl ⟨i, s, hi, hs⟩)
        · exact Or.inr hs
  refine ⟨h.ids, h.idLt, fun id hid => ?_, h.searching, fun hu' p hm hx => ?_⟩
  · rcases plays id hid with hid | ⟨hlt, -⟩
    · exact h.playLt id hid
    · exact hlt
  · obtain ⟨hst, hcl, hno⟩ := h.waiting (hu.unborn hu') p hm hx
    refine ⟨hst, hcl, fun hid => ?_⟩
    rcases plays _ hid with hid | ⟨-, hne⟩
    · exact hno hid
    · exact hne (hu.unborn hu') p hm hx rfl

/-- A client session begins. -/
theorem Awaits.begin (h : Awaits x c) {n : ClientSession} (hn : n.calls = []) :
    Awaits x { c with clients := c.clients.push n } := by
  have hget : ∀ j, (c.clients.push n)[j]? = if j = c.clients.size then some n else c.clients[j]? :=
    fun j => Array.getElem?_push
  refine h.of (stay_push c n) (.refl _) (fun r hr => Or.inl hr) ?_ (Nat.le_refl _)
  intro id hx
  rcases hx with ⟨j, t, hj, ht⟩ | hm
  · have hj : (c.clients.push n)[j]? = some t := hj
    rw [hget] at hj
    split at hj
    · cases hj
      obtain ⟨d, hd, -⟩ := ht
      rw [hn] at hd
      cases hd
    · exact Or.inl ⟨j, t, hj, ht⟩
  · exact Or.inr hm

/-- Programs change under their numbers and their clients' names. One that waits for its first
session has none after that, and does not cool down. -/
theorem Awaits.update (h : Awaits x c) {f : ProgramRun → ProgramRun}
    (hid : ∀ p ∈ c.programs, (f p).id = p.id)
    (hc : ∀ p ∈ c.programs, (f p).program.config.client = p.program.config.client)
    (hw : c.Unborn x → ∀ p ∈ c.programs, p.program.config.client = x →
      (f p).program.stage ≠ .cooling ∧ (f p).client = none) :
    Awaits x { c with programs := c.programs.map f } := by
  refine ⟨?_, ?_, h.playLt, ?_, ?_⟩
  · show ((c.programs.map f).map ProgramRun.id).Nodup
    rw [List.map_map]
    have e : c.programs.map (ProgramRun.id ∘ f) = c.programs.map ProgramRun.id :=
      List.map_congr_left hid
    rw [e]
    exact h.ids
  · intro p hp
    obtain ⟨q, hq, rfl⟩ := List.mem_map.1 hp
    rw [hid q hq]
    exact h.idLt q hq
  · intro r hr hn p hp hpr
    obtain ⟨q, hq, rfl⟩ := List.mem_map.1 hp
    rw [hc q hq]
    exact h.searching r hr hn q hq ((hid q hq).symm.trans hpr)
  · intro hu p hp hx
    obtain ⟨q, hq, rfl⟩ := List.mem_map.1 hp
    rw [hc q hq] at hx
    obtain ⟨hst, hcl⟩ := hw hu q hq hx
    refine ⟨hst, hcl, ?_⟩
    rw [hid q hq]
    exact (h.waiting hu q hq hx).2.2

/-- A program begins, under a new number. -/
theorem Awaits.add (h : Awaits x c) {p : ProgramRun} (hf : p.id < c.fresh)
    (hn : ∀ q ∈ c.programs, q.id ≠ p.id) (hs : ∀ r ∈ c.searches, r.id ≠ p.id)
    (hpl : ¬ c.Plays p.id) (hst : p.program.stage ≠ .cooling) (hc : p.client = none) :
    Awaits x { c with programs := c.programs ++ [p] } := by
  have mem : ∀ q ∈ c.programs ++ [p], q ∈ c.programs ∨ q = p := by
    intro q hq
    rcases List.mem_append.1 hq with hq | hq
    · exact Or.inl hq
    · exact Or.inr (List.mem_singleton.1 hq)
  refine ⟨?_, ?_, h.playLt, ?_, ?_⟩
  · show ((c.programs ++ [p]).map ProgramRun.id).Nodup
    rw [List.map_append, List.nodup_append]
    refine ⟨h.ids, by simp, ?_⟩
    intro a ha b hb
    obtain ⟨q, hq, rfl⟩ := List.mem_map.1 ha
    have hb : b = p.id := by simpa using hb
    exact hb ▸ hn q hq
  · intro q hq
    rcases mem q hq with hq | rfl
    · exact h.idLt q hq
    · exact hf
  · intro r hr hname q hq hid
    rcases mem q hq with hq | rfl
    · exact h.searching r hr hname q hq hid
    · exact absurd hid.symm (hs r hr)
  · intro hu q hq hx
    rcases mem q hq with hq | rfl
    · exact h.waiting hu q hq hx
    · exact ⟨hst, hc, hpl⟩

end Cell

end LockCell
