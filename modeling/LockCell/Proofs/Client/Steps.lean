import LockCell.Client.Session

/-
  LockCell.Proofs.Client.Steps — what a client session does next, case by case.

  A step is the watch's, or that of a lock call while the watch has nothing to do
  (`step?_cases`). `WatchStep` and `CallStep` list what these can be and when; what later
  modules say of a step they say by cases on them.
-/

namespace LockCell

namespace ClientSession

variable {s : ClientSession} {now : Nat} {x : Step}

/-- All that the watch can do. -/
inductive WatchStep (s : ClientSession) (now : Nat) : Step → Prop
  | ends : s.closed = true → s.watch ≠ .over → WatchStep s now s.endWatch
  | hears {g : Nat} {r : Except Error KeepAlive} {rest : List (Nat × Except Error KeepAlive)} :
      s.closed = false → s.watch = .renewing → s.inbox = (g, r) :: rest →
      WatchStep s now ({ s with inbox := rest }.take g r now)
  | falls : s.closed = false → s.watch = .renewing → s.deadline ≤ now →
      WatchStep s now s.fallInJeopardy
  | renews : s.closed = false → s.watch = .renewing →
      (!s.inFlight && s.next.any (· ≤ now)) = true → WatchStep s now (s.renew now)
  /-- The candidate that was found says that the session is over. -/
  | refused {a : Addr} {k : KeepAlive} {t : Nat} : s.closed = false → s.watch = .searching →
      s.found = some (a, k, t) → k.expired = true → WatchStep s now s.expire.endWatch
  | recovers {a : Addr} {k : KeepAlive} {t : Nat} : s.closed = false → s.watch = .searching →
      s.found = some (a, k, t) → k.expired = false → WatchStep s now (s.recover a k t now)
  | runsOut {d : Nat} : s.closed = false → s.watch = .searching → s.found = none →
      s.phase = .jeopardy d → d ≤ now → WatchStep s now s.expire.endWatch
  | asks {d : Nat} : s.closed = false → s.watch = .searching → s.found = none →
      s.phase = .jeopardy d → s.probe = .idle ∨ (∃ t, s.probe = .resting t ∧ t ≤ now) →
      WatchStep s now (s.ask now s.candidates)

theorem WatchStep.of_renewStep? (hc : s.closed = false) (hw : s.watch = .renewing)
    (hx : s.renewStep? now = some x) : s.WatchStep now x := by
  unfold renewStep? at hx
  split at hx
  · rename_i hi
    cases hx
    exact .hears hc hw hi
  · split at hx
    · rename_i hd
      cases hx
      exact .falls hc hw hd
    · split at hx
      · rename_i hn
        cases hx
        exact .renews hc hw hn
      · cases hx

theorem WatchStep.of_searchStep? (hc : s.closed = false) (hw : s.watch = .searching)
    (hx : s.searchStep? now = some x) : s.WatchStep now x := by
  unfold searchStep? at hx
  split at hx
  · rename_i hf
    split at hx
    · rename_i he
      cases hx
      exact .refused hc hw hf he
    · rename_i he
      cases hx
      exact .recovers hc hw hf (by simpa using he)
  · rename_i hf hp
    split at hx
    · rename_i hd
      cases hx
      exact .runsOut hc hw hf hp hd
    · split at hx
      · rename_i hb
        cases hx
        exact .asks hc hw hf hp (Or.inl hb)
      · rename_i t hb
        split at hx
        · rename_i ht
          cases hx
          exact .asks hc hw hf hp (Or.inr ⟨t, hb, ht⟩)
        · cases hx
      · cases hx
  · cases hx

theorem WatchStep.of_watchStep? (hx : s.watchStep? now = some x) : s.WatchStep now x := by
  unfold watchStep? at hx
  split at hx
  · cases hx
  · rename_i hw
    split at hx
    · rename_i hc
      cases hx
      exact .ends hc (by simp [hw])
    · rename_i hc
      exact WatchStep.of_renewStep? (by simpa using hc) hw hx
  · rename_i hw
    split at hx
    · rename_i hc
      cases hx
      exact .ends hc (by simp [hw])
    · rename_i hc
      exact WatchStep.of_searchStep? (by simpa using hc) hw hx

/-- All that a lock call can do by itself. -/
inductive CallStep (s : ClientSession) (now : Nat) (c : LockCall) : Step → Prop
  | returns {t : Nat} : c.state = .resting t → t ≤ now →
      CallStep s now c (s.setCall { c with state := .gate }, [])
  | goes : c.state = .gate → s.phase = .active →
      CallStep s now c (s.setCall { c with state := .flying },
        [.send (.lock c.id) s.server (c.op.request s.client)])
  | fails : c.state = .gate → s.phase = .expired →
      CallStep s now c (s.dropCall c.id, [.finish c.id (.error (.sessionExpired s.client))])

theorem CallStep.of_callStep? {c : LockCall} (hx : s.callStep? now c = some x) :
    s.CallStep now c x := by
  unfold callStep? at hx
  split at hx
  · cases hx
  · rename_i t hs
    split at hx
    · rename_i ht
      cases hx
      exact .returns hs ht
    · cases hx
  · rename_i hs
    split at hx
    · cases hx
    · rename_i hp
      cases hx
      exact .fails hs hp
    · rename_i hp
      cases hx
      exact .goes hs hp

theorem step?_cases (hx : s.step? now = some x) :
    s.watchStep? now = some x ∨
      s.watchStep? now = none ∧ ∃ c ∈ s.calls, s.callStep? now c = some x := by
  unfold step? at hx
  simp only [Option.orElse_eq_orElse, Option.orElse_eq_or, Option.or_eq_some_iff] at hx
  rcases hx with hx | ⟨hw, hx⟩
  · exact Or.inl hx
  · exact Or.inr ⟨hw, List.exists_of_findSome?_eq_some hx⟩

end ClientSession

end LockCell
