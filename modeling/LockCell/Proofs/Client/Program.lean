import LockCell.Client.Program

/-
  LockCell.Proofs.Client.Program — when a client program looks for a session again.

  A program goes on as it was configured (`config_resume`). It looks for a session anew only
  when it has cooled down (`cooling_of_resume`), and it starts to cool down only after a lock
  call of its own was answered (`answered_of_cooling`).
-/

namespace LockCell

namespace Program

/-- The program goes on, with a session or without. -/
structure Goes (g : Program) (m : Move) : Prop where
  config : m.1.config = g.config
  stage : m.1.stage ≠ .cooling
  task : m.2 ≠ .connect

variable {g : Program} {now : Nat}

theorem goes_leave (closing : Bool) (r : Except Error Unit) : g.Goes (g.leave closing r) :=
  ⟨rfl, nofun, nofun⟩

theorem goes_stay : g.Goes g.stay := ⟨rfl, nofun, nofun⟩

theorem goes_attempt (l : List Path) : g.Goes (g.attempt l) := by
  cases l with
  | nil => exact goes_stay
  | cons p rest => exact ⟨rfl, nofun, nofun⟩

theorem goes_tryNext (l : List Path) : g.Goes (g.tryNext l) := by
  unfold tryNext
  split
  · exact goes_attempt g.paths
  · exact goes_attempt l

theorem goes_openNext (l : List Path) : g.Goes (g.openNext l) := by
  cases l with
  | nil => exact goes_attempt g.paths
  | cons p rest => exact ⟨rfl, nofun, nofun⟩

theorem goes_ask (l : List Addr) : g.Goes (g.ask l) := by
  cases l with
  | nil => exact goes_leave false (.ok ())
  | cons a rest => exact ⟨rfl, nofun, nofun⟩

theorem goes_connected : g.Goes g.connected := by
  unfold connected
  split
  · exact ⟨rfl, nofun, nofun⟩
  · exact goes_openNext g.paths

theorem goes_tried (granted : Bool) (l : List Path) : g.Goes (g.tried granted l now) := by
  unfold tried
  split
  · split
    · exact goes_stay
    · exact ⟨rfl, nofun, nofun⟩
  · split
    · exact ⟨rfl, nofun, nofun⟩
    · exact goes_leave true (.ok ())
  · split
    · exact ⟨rfl, nofun, nofun⟩
    · exact goes_tryNext _
  · exact goes_stay

theorem goes_released (l : List Path) : g.Goes (g.released l) := by
  unfold released
  split
  · exact goes_tryNext l.tail
  · exact goes_leave true (.ok ())

/-- A failed call may send a program to cool down, and not to look for a session. -/
theorem failed_eq (g : Program) (e : Error) (now : Nat) :
    (g.failed e now).1.config = g.config ∧ (g.failed e now).2 ≠ .connect := by
  unfold failed
  repeat' split
  all_goals exact ⟨rfl, nofun⟩

/-- What a program does when it is told something. -/
theorem resume_cases (g : Program) (now : Nat) (e : Event) :
    g.Goes (g.resume now e) ∨ (g.stage = .cooling ∧ g.resume now e = g.connect) ∨
      ∃ r, e = .answered r ∧ (g.resume now e).1.config = g.config ∧
        (g.resume now e).2 ≠ .connect := by
  cases e with
  | connected r =>
    left
    rcases r with e | ⟨⟨⟩⟩
    · exact goes_leave false (.error e)
    · exact goes_connected
  | expired => exact Or.inl (goes_leave false (.ok ()))
  | woke =>
    simp only [resume]
    split
    · rename_i h
      exact Or.inr (Or.inl ⟨h, rfl⟩)
    · left
      split
      · exact ⟨rfl, nofun, nofun⟩
      · exact goes_stay
    · exact Or.inl (goes_attempt g.paths)
  | statusRead =>
    left
    simp only [resume]
    split
    · exact goes_ask _
    · exact goes_stay
  | answered r =>
    refine Or.inr (Or.inr ⟨r, rfl, ?_⟩)
    simp only [resume]
    split
    · exact ⟨rfl, nofun⟩
    · exact ⟨(goes_openNext _).config, (goes_openNext _).task⟩
    · exact ⟨(goes_tried _ _).config, (goes_tried _ _).task⟩
    · exact ⟨(goes_released _).config, (goes_released _).task⟩
    · exact failed_eq g _ now
    · exact ⟨rfl, nofun⟩

/-- A program does not begin by cooling down. -/
theorem stage_start (cfg : ClientConfig) (cmd : ProgramCommand) :
    (start cfg cmd).1.stage ≠ .cooling := by
  cases cmd with
  | status => exact (goes_ask cfg.servers).stage
  | _ => exact nofun

theorem config_resume (g : Program) (now : Nat) (e : Event) :
    (g.resume now e).1.config = g.config := by
  rcases resume_cases g now e with h | ⟨-, h⟩ | ⟨-, -, h, -⟩
  · exact h.config
  · rw [h]
    rfl
  · exact h

theorem cooling_of_resume {e : Event} (h : (g.resume now e).2 = .connect) : g.stage = .cooling := by
  rcases resume_cases g now e with hg | ⟨hs, -⟩ | ⟨-, -, -, hn⟩
  · exact absurd h hg.task
  · exact hs
  · exact absurd h hn

theorem answered_of_cooling {e : Event} (h : (g.resume now e).1.stage = .cooling) :
    ∃ r, e = .answered r := by
  rcases resume_cases g now e with hg | ⟨-, hc⟩ | ⟨r, hr, -⟩
  · exact absurd h hg.stage
  · rw [hc] at h
    cases h
  · exact ⟨r, hr⟩

end Program

end LockCell
