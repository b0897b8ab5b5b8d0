import LockCell.Client.Search
import LockCell.Net.Delivery

/-
  LockCell.Proofs.Client.Searching — a search for the master comes to an end, and to the
  right one.

  Nothing is asked of the servers but that each request is delivered in one way or another:
  the same server may answer a later request differently, and where they send the client may
  lead in circles. What ends a search is its budget: a redirect uses up a hop, and the next
  candidate, who has all hops again, uses up a candidate (`budget_answered_lt`).

  A search is one chain of requests after another (`trials_course`). A chain begins at a
  candidate and goes where each answer sends it (`Chain`). It has a verdict if a server takes
  the session, or refuses in a way that ends the search; without one the search goes on
  with the next candidate (`Trials`). Only the last request of a chain can have a verdict, so
  the search ends with the first one there is (`Trials.ends`).
-/

namespace LockCell

namespace Search

/-- A request for a new session and its answer. -/
structure Exchange where
  addr : Addr
  answer : Except Error Response

/-- The server has made the session. -/
def Exchange.Accepts (x : Exchange) : Prop := ∃ y, x.answer = .ok y

/-- The answer is an error, but neither the refusal of a server that does not lead nor a
request that did not get through. -/
def Exchange.Refuses (x : Exchange) (e : Error) : Prop :=
  x.answer = .error e ∧ (∀ l, e ≠ .notLeader l) ∧ (∀ a t, e ≠ .transport a t) ∧
    ∀ a, e ≠ .connectionClosed a

/-- How many requests are still to come, at most. -/
def Next.budget : Next → Nat
  | .ask s => 1 + s.hops + s.rest.length * (s.config.servers.length + 1)
  | .found _ | .failed _ => 0

variable {s : Search} {cfg : ClientConfig} {begun : Nat} {as : List Addr}

theorem budget_candidate (cfg : ClientConfig) (begun : Nat) (as : List Addr) :
    (candidate cfg begun as).budget = as.length * (cfg.servers.length + 1) := by
  cases as with
  | nil => simp [candidate, Next.budget]
  | cons a rest =>
    simp only [candidate, Next.budget, List.length_cons, Nat.succ_mul]
    omega

theorem budget_answered_lt (s : Search) (r : Except Error Response) :
    (s.answered r).budget < (Next.ask s).budget := by
  have hc : (candidate s.config s.begun s.rest).budget < (Next.ask s).budget := by
    rw [budget_candidate]
    simp only [Next.budget]
    omega
  unfold answered
  split
  · exact Nat.zero_lt_of_lt hc
  · split
    · rename_i hops _ hh
      simp only [Next.budget, hh]
      omega
    · split
      · exact hc
      · exact Nat.zero_lt_of_lt hc

/-- The requests of a search and what it comes to, if the request number `i` to a server has
the delivery `d i`, for the requests from number `i` on. -/
def course (d : Nat → Addr → Delivery) (i : Nat) : Next → List Exchange × Except Error Addr
  | .found s => ([], .ok s.current)
  | .failed e => ([], .error e)
  | .ask s =>
    let r := (d i s.current).outcome .initSession s.current
    let (xs, out) := course d (i + 1) (s.answered r)
    (⟨s.current, r⟩ :: xs, out)
termination_by next => next.budget
decreasing_by exact budget_answered_lt _ _

/-! ## What an answer means -/

theorem passable_eq_false_iff {e : Error} : passable e = false ↔
    (∀ l, e ≠ .notLeader l) ∧ (∀ a t, e ≠ .transport a t) ∧ ∀ a, e ≠ .connectionClosed a := by
  cases e <;> simp [passable, Error.isTransient]

theorem passable_of_redirect? {e : Error} {a : Addr} (h : e.redirect? = some a) :
    passable e = true := by
  cases e <;> simp_all [Error.redirect?, passable]

/-- What the search comes to if it ends with this answer, and `none` if it does not. -/
def Exchange.verdict? (x : Exchange) : Option (Except Error Addr) :=
  match x.answer with
  | .ok _ => some (.ok x.addr)
  | .error e => if passable e then none else some (.error e)

theorem Exchange.verdict?_eq_ok_iff {x : Exchange} {a : Addr} :
    x.verdict? = some (.ok a) ↔ x.addr = a ∧ x.Accepts := by
  unfold verdict? Accepts
  cases x.answer with
  | ok y => simp
  | error e => cases passable e <;> simp

theorem Exchange.verdict?_eq_error_iff {x : Exchange} {e : Error} :
    x.verdict? = some (.error e) ↔ x.Refuses e := by
  unfold verdict? Refuses
  rw [← passable_eq_false_iff]
  cases x.answer with
  | ok y => simp
  | error e' => by_cases h : passable e' = true <;> simp <;> grind

theorem Exchange.verdict?_eq_none_iff {x : Exchange} :
    x.verdict? = none ↔ ¬ x.Accepts ∧ ∀ e, ¬ x.Refuses e := by
  cases hv : x.verdict? with
  | none =>
    refine iff_of_true rfl ⟨fun ha => ?_, fun e he => ?_⟩
    · cases hv.symm.trans (verdict?_eq_ok_iff.2 ⟨rfl, ha⟩)
    · cases hv.symm.trans (verdict?_eq_error_iff.2 he)
  | some out =>
    refine iff_of_false nofun fun h => ?_
    cases out with
    | ok a => exact h.1 (verdict?_eq_ok_iff.1 hv).2
    | error e => exact h.2 e (verdict?_eq_error_iff.1 hv)

/-- No server claims that no server is available. -/
theorem outcome_ne_noServerAvailable (d : Delivery) (a : Addr) :
    d.outcome .initSession a ≠ .error .noServerAvailable := by
  have hr : ∀ r : Reply, Delivery.ofReply r ≠ .error .noServerAvailable := by
    intro r
    cases r with
    | ok y => nofun
    | error f => cases f <;> nofun
  cases d with
  | closed => nofun
  | unsent => simp [Delivery.outcome, Delivery.unsentError]
  | status s => simp [Delivery.outcome, Delivery.undecodable]
  | reply r => exact hr r
  | raw code body =>
    simp only [Delivery.outcome]
    repeat' split
    · nofun
    · simp [Delivery.undecodable]
    · exact hr _
    · nofun

/-! ## Chains -/

/-- The requests that begin at a candidate, if so many redirects may be followed, and the
verdict at their end. -/
inductive Chain : Nat → Addr → List Exchange → Option (Except Error Addr) → Prop
  | found {hops : Nat} {a : Addr} (y : Response) : Chain hops a [⟨a, .ok y⟩] (some (.ok a))
  | refused {hops : Nat} {a : Addr} {e : Error} :
      passable e = false → Chain hops a [⟨a, .error e⟩] (some (.error e))
  /-- It leads nowhere, or further than is followed. -/
  | dead {hops : Nat} {a : Addr} {e : Error} :
      passable e = true → (e.redirect? = none ∨ hops = 0) → Chain hops a [⟨a, .error e⟩] none
  | follow {hops : Nat} {a b : Addr} {e : Error} {c : List Exchange}
      {v : Option (Except Error Addr)} : e.redirect? = some b → Chain hops b c v →
      Chain (hops + 1) a (⟨a, .error e⟩ :: c) v

/-- The chains of a search that has these candidates to ask, and what it comes to. -/
inductive Trials (n : Nat) : List Addr → List (List Exchange) → Except Error Addr → Prop
  | none : Trials n [] [] (.error .noServerAvailable)
  | settled {a : Addr} {rest : List Addr} {c : List Exchange} {out : Except Error Addr} :
      Chain n a c (some out) → Trials n (a :: rest) [c] out
  | next {a : Addr} {rest : List Addr} {c : List Exchange} {cs : List (List Exchange)}
      {out : Except Error Addr} :
      Chain n a c Option.none → Trials n rest cs out → Trials n (a :: rest) (c :: cs) out

variable {n hops i : Nat} {a : Addr} {c : List Exchange} {cs : List (List Exchange)}
  {v : Option (Except Error Addr)} {out : Except Error Addr} {d : Nat → Addr → Delivery}

theorem Chain.length_le (h : Chain hops a c v) : c.length ≤ hops + 1 := by
  induction h with
  | found | refused | dead => exact Nat.le_add_left _ _
  | follow _ _ ih => exact Nat.succ_le_succ ih

/-- Only the last request has a verdict, that of the chain. -/
theorem Chain.ends (h : Chain hops a c v) :
    ∃ before x, c = before ++ [x] ∧ (∀ y ∈ before, y.verdict? = none) ∧ x.verdict? = v := by
  induction h with
  | found y => exact ⟨[], _, rfl, by simp, rfl⟩
  | refused hp => exact ⟨[], _, rfl, by simp, by simp [Exchange.verdict?, hp]⟩
  | dead hp => exact ⟨[], _, rfl, by simp, by simp [Exchange.verdict?, hp]⟩
  | follow hr _ ih =>
    obtain ⟨before, x, rfl, hb, hx⟩ := ih
    refine ⟨_ :: before, x, rfl, List.forall_mem_cons.2 ⟨?_, hb⟩, hx⟩
    simp [Exchange.verdict?, passable_of_redirect? hr]

theorem Trials.length_le (h : Trials n as cs out) : cs.length ≤ as.length := by
  induction h with
  | none => exact Nat.le_refl 0
  | settled => exact Nat.succ_le_succ (Nat.zero_le _)
  | next _ _ ih => exact Nat.succ_le_succ ih

/-- Chains belong to the candidates in their order. -/
theorem Trials.chain (h : Trials n as cs out) {j : Nat} (hj : cs[j]? = some c) :
    ∃ a v, as[j]? = some a ∧ Chain n a c v := by
  induction h generalizing j with
  | none => simp at hj
  | settled hc =>
    cases j with
    | zero =>
      cases hj
      exact ⟨_, _, rfl, hc⟩
    | succ j => simp at hj
  | next hc _ ih =>
    cases j with
    | zero =>
      cases hj
      exact ⟨_, _, rfl, hc⟩
    | succ j => exact ih hj

/-- The search ends with the first verdict, or without one when all candidates are asked. -/
theorem Trials.ends (h : Trials n as cs out) :
    (out = .error .noServerAvailable ∧ cs.length = as.length ∧
        ∀ x ∈ cs.flatten, x.verdict? = Option.none) ∨
      ∃ before x, cs.flatten = before ++ [x] ∧ (∀ y ∈ before, y.verdict? = Option.none) ∧
        x.verdict? = some out := by
  induction h with
  | none => exact Or.inl ⟨rfl, rfl, by simp⟩
  | settled hc =>
    obtain ⟨before, x, rfl, hb, hx⟩ := hc.ends
    exact Or.inr ⟨before, x, by simp, hb, hx⟩
  | next hc _ ih =>
    obtain ⟨before, x, rfl, hb, hx⟩ := hc.ends
    have hc : ∀ y ∈ before ++ [x], y.verdict? = Option.none := by
      simpa [or_imp, forall_and] using ⟨hb, hx⟩
    rcases ih with ⟨rfl, hl, hn⟩ | ⟨b', x', hcs, hb', hx'⟩
    · refine Or.inl ⟨rfl, congrArg Nat.succ hl, fun y hy => ?_⟩
      rw [List.flatten_cons] at hy
      exact (List.mem_append.1 hy).elim (hc y) (hn y)
    · refine Or.inr ⟨before ++ [x] ++ b', x', ?_, fun y hy => ?_, hx'⟩
      · rw [List.flatten_cons, hcs, List.append_assoc (before ++ [x])]
      · exact (List.mem_append.1 hy).elim (hc y) (hb' y)

/-! ## The course of a search -/

theorem course_ask (d : Nat → Addr → Delivery) (i : Nat) (s : Search) :
    course d i (.ask s) =
      let r := (d i s.current).outcome .initSession s.current
      let y := course d (i + 1) (s.answered r)
      (⟨s.current, r⟩ :: y.1, y.2) := by
  rw [course]

/-- All that can follow from an answer. -/
inductive After (s : Search) : Except Error Response → Next → Prop
  | found (y : Response) : After s (.ok y) (.found s)
  | refused {e : Error} : passable e = false → After s (.error e) (.failed e)
  | dead {e : Error} : passable e = true → (e.redirect? = none ∨ s.hops = 0) →
      After s (.error e) (candidate s.config s.begun s.rest)
  | follow {e : Error} {b : Addr} {hops : Nat} : e.redirect? = some b → s.hops = hops + 1 →
      After s (.error e) (.ask { s with current := b, hops })

theorem after_answered (s : Search) (r : Except Error Response) : s.After r (s.answered r) := by
  cases r with
  | ok y => exact .found y
  | error e =>
    simp only [answered]
    split
    · rename_i hr hh
      exact .follow hr hh
    · rename_i hno
      have hd : e.redirect? = none ∨ s.hops = 0 := by
        cases hr : e.redirect? with
        | none => exact Or.inl rfl
        | some b =>
          cases hh : s.hops with
          | zero => exact Or.inr rfl
          | succ k => exact absurd hh (hno b k hr)
      split
      · rename_i hp
        exact .dead hp hd
      · rename_i hp
        exact .refused (by simpa using hp)

/-- A search goes through a chain, and without a verdict on to the next candidate. -/
theorem chain_course (d : Nat → Addr → Delivery) (i : Nat) (s : Search) :
    ∃ c v, Chain s.hops s.current c v ∧ (∀ out, v = some out → course d i (.ask s) = (c, out)) ∧
      (v = none → ∃ j, course d i (.ask s) =
        (c ++ (course d j (candidate s.config s.begun s.rest)).1,
          (course d j (candidate s.config s.begun s.rest)).2)) := by
  -- each redirect that is followed uses up a hop
  induction hh : s.hops using Nat.strongRecOn generalizing i s with
  | ind k ih =>
    rw [course_ask]
    simp only
    generalize hr : (d i s.current).outcome .initSession s.current = r
    have ha := s.after_answered r
    revert ha
    generalize s.answered r = next
    intro ha
    cases ha with
    | found y =>
      refine ⟨_, _, .found y, fun out ho => ?_, nofun⟩
      cases ho
      rw [course]
    | refused hp =>
      refine ⟨_, _, .refused hp, fun out ho => ?_, nofun⟩
      cases ho
      rw [course]
    | dead hp hd => exact ⟨_, _, .dead hp (hh ▸ hd), nofun, fun _ => ⟨i + 1, rfl⟩⟩
    | follow hb hs =>
      rename_i b hops
      obtain rfl : k = hops + 1 := hh.symm.trans hs
      obtain ⟨c, v, hc, hsome, hnone⟩ :=
        ih hops (Nat.lt_succ_self _) (i + 1) { s with current := b, hops } rfl
      refine ⟨_, v, .follow hb hc, fun out ho => ?_, fun hv => ?_⟩
      · rw [hsome out ho]
      · obtain ⟨j, hj⟩ := hnone hv
        exact ⟨j, by rw [hj]; rfl⟩

theorem trials_course (d : Nat → Addr → Delivery) (i : Nat) (cfg : ClientConfig) (begun : Nat)
    (as : List Addr) : ∃ cs out, Trials cfg.servers.length as cs out ∧
      course d i (candidate cfg begun as) = (cs.flatten, out) := by
  induction as generalizing i with
  | nil => exact ⟨[], _, .none, by rw [candidate, course]; rfl⟩
  | cons a rest ih =>
    obtain ⟨c, v, hc, hsome, hnone⟩ :=
      chain_course d i ⟨cfg, begun, a, cfg.servers.length, rest⟩
    cases v with
    | some out =>
      refine ⟨[c], out, .settled hc, ?_⟩
      rw [List.flatten_singleton]
      exact hsome out rfl
    | none =>
      obtain ⟨j, hj⟩ := hnone rfl
      obtain ⟨cs, out, ht, he⟩ := ih j
      refine ⟨c :: cs, out, .next hc ht, ?_⟩
      show course d i (.ask _) = _
      rw [hj, he, List.flatten_cons]

/-- Every request is answered as it is delivered. -/
theorem answer_of_course {next : Next} {j : Nat} {x : Exchange}
    (hx : (course d i next).1[j]? = some x) :
    x.answer = (d (i + j) x.addr).outcome .initSession x.addr := by
  induction j generalizing i next with
  | zero =>
    cases next with
    | found s | failed e => simp [course] at hx
    | ask s =>
      rw [course_ask] at hx
      cases hx
      rfl
  | succ j ih =>
    cases next with
    | found s | failed e => simp [course] at hx
    | ask s =>
      rw [course_ask] at hx
      have hx := ih hx
      rwa [show i + 1 + j = i + (j + 1) by omega] at hx

theorem length_course_le (d : Nat → Addr → Delivery) (i : Nat) (next : Next) :
    (course d i next).1.length ≤ next.budget := by
  induction hb : next.budget using Nat.strongRecOn generalizing i next with
  | ind b ih =>
    cases next with
    | found s | failed e => simp [course]
    | ask s =>
      rw [course_ask, List.length_cons]
      have hlt := budget_answered_lt s ((d i s.current).outcome .initSession s.current)
      rw [hb] at hlt
      exact Nat.lt_of_le_of_lt (ih _ hlt (i + 1) _ rfl) hlt

/-- What a client can count on that looks for a master among `servers`, has the requests `xs`
answered as `d` delivers them, and comes to `out`. -/
structure Exact (d : Nat → Addr → Delivery) (servers : List Addr) (xs : List Exchange)
    (out : Except Error Addr) : Prop where
  answered : ∀ (j : Nat) (x : Exchange), xs[j]? = some x →
    x.answer = (d j x.addr).outcome .initSession x.addr
  length_le : xs.length ≤ servers.length * (servers.length + 1)
  /-- The candidates are tried in order; the search has no use for those that are left. -/
  chains : ∃ cs : List (List Exchange), xs = cs.flatten ∧ cs.length ≤ servers.length ∧
    (∀ (j : Nat) (c : List Exchange), cs[j]? = some c →
      ∃ a v, servers[j]? = some a ∧ Chain servers.length a c v ∧
        c.length ≤ servers.length + 1) ∧
    (out = .error .noServerAvailable ↔
      cs.length = servers.length ∧ ∀ c ∈ cs, ∀ x ∈ c, ¬ x.Accepts ∧ ∀ e, ¬ x.Refuses e)
  /-- Nothing is sent after a verdict. -/
  last : ∀ before x after, xs = before ++ x :: after → (x.Accepts ∨ ∃ e, x.Refuses e) → after = []
  found_iff : ∀ a, out = .ok a ↔ ∃ x ∈ xs, x.addr = a ∧ x.Accepts
  failed_iff : ∀ e, e ≠ .noServerAvailable → (out = .error e ↔ ∃ x ∈ xs, x.Refuses e)

/-- Nothing follows a verdict. -/
theorem Trials.last (h : Trials n as cs out) {before after : List Exchange} {x : Exchange}
    (hx : cs.flatten = before ++ x :: after) (hv : x.verdict? ≠ Option.none) : after = [] := by
  rcases h.ends with ⟨-, -, hnone⟩ | ⟨b, z, hcs, hb, -⟩
  · exact absurd (hnone x (by simp [hx])) hv
  · rcases List.eq_nil_or_concat after with rfl | ⟨l, w, rfl⟩
    · rfl
    · -- then `x` is not the last request
      rw [hx, List.concat_eq_append, ← List.cons_append, ← List.append_assoc] at hcs
      have hmem : x ∈ b := (List.append_inj' hcs rfl).1 ▸ by simp
      exact absurd (hb x hmem) hv

/-- What the search comes to is the verdict of one of its requests, if there is one. -/
theorem Trials.eq_iff (h : Trials n as cs out) {o : Except Error Addr}
    (ho : o ≠ .error .noServerAvailable) :
    out = o ↔ ∃ x ∈ cs.flatten, x.verdict? = some o := by
  rcases h.ends with ⟨rfl, -, hnone⟩ | ⟨b, z, hcs, hb, hz⟩
  · refine iff_of_false ho.symm fun ⟨x, hx, hv⟩ => ?_
    cases (hnone x hx).symm.trans hv
  · rw [hcs]
    constructor
    · rintro rfl
      exact ⟨z, by simp, hz⟩
    · rintro ⟨x, hx, hv⟩
      rcases List.mem_append.1 hx with hx | hx
      · cases (hb x hx).symm.trans hv
      · rw [List.mem_singleton.1 hx] at hv
        exact Option.some.inj (hz.symm.trans hv)

/-- No server is found if all are asked and there is no verdict. -/
theorem Trials.eq_noServerAvailable_iff (h : Trials n as cs out)
    (hans : ∀ x ∈ cs.flatten, x.verdict? ≠ some (.error .noServerAvailable)) :
    out = .error .noServerAvailable ↔
      cs.length = as.length ∧ ∀ x ∈ cs.flatten, x.verdict? = Option.none := by
  rcases h.ends with ⟨rfl, hl, hnone⟩ | ⟨b, z, hcs, hb, hz⟩
  · exact iff_of_true rfl ⟨hl, hnone⟩
  · have hmem : z ∈ cs.flatten := by simp [hcs]
    refine iff_of_false ?_ fun hn => ?_
    · rintro rfl
      exact hans z hmem hz
    · cases (hn.2 z hmem).symm.trans hz

/-- **Finding a master terminates and is exact.** Whatever becomes of the requests, a search
sends no more than one for each candidate and each redirect that may be followed from it; it
finds the first server that accepts, fails with the first refusal that is not to be passed
over, and says that no server is available if every candidate's chain ends without either. -/
theorem exact_course (d : Nat → Addr → Delivery) (cfg : ClientConfig) (now : Nat) :
    Exact d cfg.servers (course d 0 (begin cfg now)).1 (course d 0 (begin cfg now)).2 := by
  have hlen := length_course_le d 0 (begin cfg now)
  have hd : ∀ (j : Nat) (x : Exchange), (course d 0 (begin cfg now)).1[j]? = some x →
      x.answer = (d j x.addr).outcome .initSession x.addr := by
    intro j x hx
    simpa using answer_of_course hx
  obtain ⟨cs, out, ht, hc⟩ := trials_course d 0 cfg now cfg.servers
  rw [begin, budget_candidate] at hlen
  rw [begin] at hd ⊢
  rw [hc] at hlen hd ⊢
  have hans : ∀ x ∈ cs.flatten, x.verdict? ≠ some (.error .noServerAvailable) := by
    intro x hx hv
    obtain ⟨j, hj⟩ := List.mem_iff_getElem?.1 hx
    exact outcome_ne_noServerAvailable _ _
      ((hd j x hj).symm.trans (Exchange.verdict?_eq_error_iff.1 hv).1)
  constructor
  case answered => exact hd
  case length_le => exact hlen
  case chains =>
    refine ⟨cs, rfl, ht.length_le, fun j c hj => ?_, ?_⟩
    · obtain ⟨a, v, ha, hch⟩ := ht.chain hj
      exact ⟨a, v, ha, hch, hch.length_le⟩
    · simp only [ht.eq_noServerAvailable_iff hans, List.mem_flatten, Exchange.verdict?_eq_none_iff]
      grind
  case last =>
    intro before x after hx hv
    refine ht.last hx fun hnone => ?_
    obtain ⟨ha, hr⟩ := Exchange.verdict?_eq_none_iff.1 hnone
    exact hv.elim ha fun ⟨e, he⟩ => hr e he
  case found_iff =>
    intro a
    simp only [ht.eq_iff (o := .ok a) nofun, Exchange.verdict?_eq_ok_iff]
  case failed_iff =>
    intro e he
    simp only [ht.eq_iff (o := .error e) fun h => he (Except.error.inj h),
      Exchange.verdict?_eq_error_iff]

/-- A server that sends the client to itself is asked as often as that can be. -/
example : (course (fun _ a => .reply (.error (.notLeader (some a)))) 0
    (begin ⟨"x", ["a:1"], .fast⟩ 0)).1.length = 1 * (1 + 1) := by
  cbv

end Search

end LockCell
