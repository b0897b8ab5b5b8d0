import LockCell.Proofs.Cell.Traffic

/-
  LockCell.Proofs.Cell.Searches — searches ask one server at a time.

  A search has one request out, for a new session, to the server it is at (`Seeks`). This is
  told of the searches that look for the first session of a client: once there is one,
  nothing hangs on the other searches of that client.
-/

namespace LockCell

namespace Cell

variable {x : Client} {c c' : Cell}

structure Seeks (x : Client) (c : Cell) : Prop where
  searchLt : ∀ r ∈ c.searches, r.id < c.fresh ∧ r.search.begun ≤ c.now
  callerLt : ∀ e ∈ c.errands, ∀ id, e.caller = .search id → id < c.fresh
  searched : c.Unborn x → ∀ r ∈ c.searches, r.search.config.client = x → ∀ e ∈ c.errands,
    e.caller = .search r.id → e.addr = r.search.current ∧ e.request = some (.initSession x)
  single : c.Unborn x → ∀ r ∈ c.searches, r.search.config.client = x → ∀ e ∈ c.errands,
    ∀ f ∈ c.errands, e.caller = .search r.id → f.caller = .search r.id → e.id = f.id

/-- Searches and requests are lost. -/
theorem Seeks.of (h : Seeks x c) (hst : Stay c c') (ht : c.now ≤ c'.now)
    (he : ∀ e ∈ c'.errands, e ∈ c.errands) (hs : ∀ r ∈ c'.searches, r ∈ c.searches)
    (hn : c.fresh ≤ c'.fresh) : Seeks x c' where
  searchLt r hr := by
    obtain ⟨hid, hb⟩ := h.searchLt r (hs r hr)
    exact ⟨Nat.lt_of_lt_of_le hid hn, Nat.le_trans hb ht⟩
  callerLt e hm id hid := Nat.lt_of_lt_of_le (h.callerLt e (he e hm) id hid) hn
  searched hu r hr hx e hm := h.searched (hst.unborn hu) r (hs r hr) hx e (he e hm)
  single hu r hr hx e hm f hf :=
    h.single (hst.unborn hu) r (hs r hr) hx e (he e hm) f (he f hf)

/-- What concerns neither searches nor requests. -/
theorem Seeks.of_eq (h : Seeks x c) (hst : Stay c c') (ht : c'.now = c.now)
    (hf : c'.flights = c.flights) (hs : c'.searches = c.searches) (hn : c'.fresh = c.fresh) :
    Seeks x c' :=
  h.of hst (Nat.le_of_eq ht.symm) (fun _ he => errands_of_flights hf ▸ he) (fun _ hr => hs ▸ hr)
    (Nat.le_of_eq hn.symm)

/-! ## Requests are sent -/

/-- The cell with one request more on the network. -/
def launched (c : Cell) (f : Flight) (l : List Mail) (rs : List SearchRun) (n : Nat) : Cell :=
  { c with flights := c.flights ++ [f], mail := l, searches := rs, requests := n,
           fresh := c.fresh + 1 }

theorem errands_launched (c : Cell) (f : Flight) (l : List Mail) (rs : List SearchRun) (n : Nat) :
    (c.launched f l rs n).errands = c.errands ++ [f.errand] := List.map_append

theorem mem_errands_launched {f : Flight} {l : List Mail} {rs : List SearchRun} {n : Nat}
    {e : Errand} (h : e ∈ (c.launched f l rs n).errands) : e ∈ c.errands ∨ e = f.errand := by
  rw [errands_launched] at h
  rcases List.mem_append.1 h with h | h
  · exact Or.inl h
  · exact Or.inr (List.mem_singleton.1 h)

/-- A request goes out, for nobody's search, or for one that has no other out. -/
theorem Seeks.launch (h : Seeks x c) {f : Flight} {l : List Mail} {rs : List SearchRun} {n : Nat}
    (hf : ∀ id, f.caller = .search id → id < c.fresh)
    (hr : ∀ r ∈ rs, r.id < c.fresh ∧ r.search.begun ≤ c.now)
    (hs : c.Unborn x → ∀ r ∈ rs, r.search.config.client = x →
      (r ∈ c.searches ∧ f.caller ≠ .search r.id) ∨ ((∀ e ∈ c.errands, e.caller ≠ .search r.id) ∧
        f.addr = r.search.current ∧ f.request = some (.initSession x))) :
    Seeks x (c.launched f l rs n) where
  searchLt r hm := ⟨Nat.lt_succ_of_lt (hr r hm).1, (hr r hm).2⟩
  callerLt e hm id hcl := by
    rcases mem_errands_launched hm with hm | rfl
    · exact Nat.lt_succ_of_lt (h.callerLt e hm id hcl)
    · exact Nat.lt_succ_of_lt (hf id hcl)
  searched hu r hr' hx e hm hcl := by
    rcases hs hu r hr' hx with ⟨hold, hne⟩ | ⟨hnone, ha, hreq⟩
    · rcases mem_errands_launched hm with hm | rfl
      · exact h.searched hu r hold hx e hm hcl
      · exact absurd hcl hne
    · rcases mem_errands_launched hm with hm | rfl
      · exact absurd hcl (hnone e hm)
      · exact ⟨ha, hreq⟩
  single hu r hr' hx e hm g hg hcl hcl' := by
    rcases hs hu r hr' hx with ⟨hold, hne⟩ | ⟨hnone, -, -⟩
    · -- neither is the new request
      rcases mem_errands_launched hm with hm | rfl
      · rcases mem_errands_launched hg with hg | rfl
        · exact h.single hu r hold hx e hm g hg hcl hcl'
        · exact absurd hcl' hne
      · exact absurd hcl hne
    · -- both are
      rcases mem_errands_launched hm with hm | rfl
      · exact absurd hcl (hnone e hm)
      · rcases mem_errands_launched hg with hg | rfl
        · exact absurd hcl' (hnone g hg)
        · rfl

/-! ## What a search does next -/

theorem begin_eq_ask {cfg : ClientConfig} {now : Nat} {s : Search}
    (h : Search.begin cfg now = .ask s) : s.config = cfg ∧ s.begun = now := by
  unfold Search.begin Search.candidate at h
  split at h
  · cases h
  · cases h
    exact ⟨rfl, rfl⟩

theorem begin_ne_found {cfg : ClientConfig} {now : Nat} {s : Search} :
    Search.begin cfg now ≠ .found s := by
  unfold Search.begin Search.candidate
  split <;> exact nofun

theorem answered_eq_ask {s s' : Search} {r : Except Error Response} (h : s.answered r = .ask s') :
    s'.config = s.config ∧ s'.begun = s.begun := by
  unfold Search.answered Search.candidate at h
  repeat' split at h
  all_goals cases h
  all_goals exact ⟨rfl, rfl⟩

theorem answered_eq_found {s s' : Search} {r : Except Error Response}
    (h : s.answered r = .found s') : s' = s ∧ ∃ y, r = .ok y := by
  unfold Search.answered Search.candidate at h
  repeat' split at h
  all_goals cases h
  exact ⟨rfl, _, rfl⟩

end Cell

end LockCell
