import LockCell.Proofs.Log.Opening

/-
  LockCell.Proofs.Cluster.Copies — a store is its log.

  What has been written stands in three places: the contents, the entries of the log, and
  the log's file. Two ways lead there. A cell that is opened reads all three off the file,
  with whatever stands behind the last whole entry left where it is; a write of the leader
  adds to each of them. In between servers come, and leadership goes from one to another
  and to none (`Deed`).

  `Copied` says that the three are one, and it holds after any deeds (`Copied.run`): the
  contents are the decoded entries applied in order, and the file has grown by the entries
  that the log has grown by. Only the leader's write gets in, and it adds one entry
  (`store_is_its_log`).
-/

namespace LockCell

namespace Command

/-- The command that an entry is, if it is one and nothing more. -/
def decode? (bs : Bytes) : Option Command :=
  match Parse.command bs with
  | .value c [] => some c
  | _ => none

theorem decode?_eq_some_iff {bs : Bytes} {c : Command} :
    decode? bs = some c ↔ bs = c.encode ∧ c.Fits := by
  unfold decode?
  constructor
  · intro h
    split at h
    · rename_i hc
      cases h
      have he := Parse.encode_of_command hc
      rw [List.append_nil] at he
      exact ⟨he, Parse.fits_of_command hc⟩
    · cases h
  · rintro ⟨rfl, hc⟩
    have hr := (Parse.reads_command hc).whole []
    rw [List.append_nil] at hr
    rw [hr]

theorem map_decode?_encode {cs : List Command} (h : ∀ c ∈ cs, c.Fits) :
    (cs.map encode).map decode? = cs.map some := by
  rw [List.map_map]
  exact List.map_congr_left fun c hc => decode?_eq_some_iff.2 ⟨rfl, h c hc⟩

end Command

/-- What a cell that opens on the place finds in the log's file. -/
def Place.found? : Place → Option Bytes
  | vacant => some []
  | file bs => some bs
  | directory | blocked => none

namespace Cluster

/-- What is done to a store. Joins and writes are asked of a server. -/
inductive Deed where
  | register (n : Node) (a : Addr)
  | elect (n : Node)
  | stepDown
  | follow (a : Addr)
  | join (n m : Node) (a : Addr)
  | write (n : Node) (c : Command)

/-- What it writes fits into an entry. -/
def Deed.Fits : Deed → Prop
  | write _ c => c.Fits
  | _ => True

instance (d : Deed) : Decidable d.Fits := by
  cases d <;> unfold Deed.Fits <;> infer_instance

/-- Leaves the store as it was if nothing came of it. -/
def keep (k : Cluster) : Except Error Cluster → Except Error Unit × Cluster
  | .ok k' => (.ok (), k')
  | .error e => (.error e, k)

/-- What a deed is answered with, and the store after it. -/
def does (k : Cluster) : Deed → Except Error Unit × Cluster
  | .register n a => (.ok (), k.register n a)
  | .elect n => (.ok (), k.elect n)
  | .stepDown => (.ok (), k.stepDown)
  | .follow a => (.ok (), k.follow a)
  | .join n m a => k.keep (k.join n m a)
  | .write n c => k.keep ((storeOf n).apply k c)

def run (k : Cluster) (ds : List Deed) : Cluster := ds.foldl (fun k d => (k.does d).2) k

/-- A store as it is at first, and what its log's file holds then, if it has one. -/
inductive Opened : Option Bytes → Cluster → Prop
  | new : Opened none .empty
  | on {p : Place} {k : Cluster} : p.openCluster = .ok k → Opened p.found? k

variable {k₀ k k' : Cluster} {n : Node} {c : Command} {found : Option Bytes}

/-! ## Writes and joins -/

/-- A write gets in through the leader, and through no other server. -/
theorem does_write_cases (k : Cluster) (n : Node) (c : Command) :
    k.leader = some n ∧ k.does (.write n c) = (.ok (), k.commit c) ∨
      k.leader ≠ some n ∧ k.does (.write n c) = (.error (.notLeader k.leaderAddr?), k) := by
  by_cases h : k.leader = some n
  · exact Or.inl ⟨h, by simp [does, storeOf, whenLeading, leads, h, keep]⟩
  · exact Or.inr ⟨h, by simp [does, storeOf, whenLeading, leads, h, keep, refusal]⟩

/-! ## The three copies -/

/-- The contents and the file of `k` are what its entries make of those of `k₀`. -/
structure Copied (k₀ k : Cluster) : Prop where
  contents : ∃ cs, (∀ c ∈ cs, c.Fits) ∧ k.entries = cs.map Command.encode ∧
    k.contents = .ofCommands cs
  appended : ∃ es, k.entries = k₀.entries ++ es ∧ k.file = k₀.file.map (· ++ es.flatten)

theorem Opened.copied (h : Opened found k) : Copied k k where
  contents := by
    cases h with
    | new => exact ⟨[], by simp, rfl, rfl⟩
    | @on p _ h =>
      -- a cell that opens has replayed some file, which is empty where there was none
      obtain ⟨bs, h⟩ : ∃ bs, (Place.file bs).openCluster = .ok k := by
        cases p with
        | vacant => exact ⟨[], h⟩
        | file bs => exact ⟨bs, h⟩
        | directory | blocked => cases h
      obtain ⟨cs, hr, rfl⟩ := Place.openCluster_eq_ok_iff.1 h
      obtain ⟨r, -, hcs, -⟩ := Log.replay_eq_ok_iff.1 hr
      exact ⟨cs, hcs, rfl, rfl⟩
  appended := ⟨[], by simp, by simp⟩

theorem Opened.file (h : Opened found k) : k.file = found := by
  cases h with
  | new => rfl
  | @on p _ h =>
    cases p with
    | vacant | file bs =>
      obtain ⟨cs, -, rfl⟩ := Place.openCluster_eq_ok_iff.1 h
      rfl
    | directory | blocked => cases h

/-- Members and leaders may change. -/
theorem Copied.of_eq (h : Copied k₀ k) (he : k'.entries = k.entries)
    (hc : k'.contents = k.contents) (hf : k'.file = k.file) : Copied k₀ k' where
  contents := by rw [he, hc]; exact h.contents
  appended := by rw [he, hf]; exact h.appended

theorem Copied.commit (h : Copied k₀ k) (hc : c.Fits) : Copied k₀ (k.commit c) where
  contents := by
    obtain ⟨cs, hcs, he, hd⟩ := h.contents
    refine ⟨cs ++ [c], ?_, ?_, ?_⟩
    · simpa [or_imp, forall_and] using ⟨hcs, hc⟩
    · simp [Cluster.commit, he]
    · simp [Cluster.commit, Contents.ofCommands, hd]
  appended := by
    obtain ⟨es, he, hf⟩ := h.appended
    refine ⟨es ++ [c.encode], ?_, ?_⟩
    · simp [Cluster.commit, he]
    · simp [Cluster.commit, hf, Function.comp_def]

theorem Copied.does (h : Copied k₀ k) {d : Deed} (hd : d.Fits) : Copied k₀ (k.does d).2 := by
  cases d with
  | register | elect | stepDown | follow => exact h.of_eq rfl rfl rfl
  | join n m a =>
    simp only [Cluster.does, join, whenLeading]
    split
    · exact h.of_eq rfl rfl rfl
    · exact h
  | write n c =>
    obtain ⟨-, he⟩ | ⟨-, he⟩ := does_write_cases k n c
    · rw [he]
      exact h.commit hd
    · rw [he]
      exact h

theorem Copied.run (h : Copied k₀ k) {ds : List Deed} (hds : ∀ d ∈ ds, d.Fits) :
    Copied k₀ (k.run ds) := by
  induction ds generalizing k with
  | nil => exact h
  | cons d ds ih =>
    obtain ⟨hd, hds⟩ := List.forall_mem_cons.1 hds
    exact ih (h.does hd) hds

/-- The store `k`, which was `k₀` when its log's file was `found`, is its log. -/
structure IsItsLog (found : Option Bytes) (k₀ k : Cluster) : Prop where
  /-- The contents are the entries, decoded and applied in order to nothing. -/
  contents : ∃ cs, k.entries.map Command.decode? = cs.map some ∧ k.contents = .ofCommands cs
  /-- All servers read the same. -/
  reads : ∀ n key, (storeOf n).get k key = .ok k.contents[key]?
  /-- The file is what was found in it, and the entries appended since. -/
  file : ∃ es, k.entries = k₀.entries ++ es ∧ k.file = found.map (· ++ es.flatten)
  /-- A write succeeds through the leader, and adds its one entry. -/
  written : ∀ n c, (k.does (.write n c)).1 = .ok () →
    k.leader = some n ∧ (k.does (.write n c)).2.entries = k.entries ++ [c.encode]
  refused : ∀ n c a, (k.does (.write n c)).1 = .error (.notLeader a) →
    k.leader ≠ some n ∧ (k.does (.write n c)).2 = k

theorem Copied.isItsLog (h : Copied k₀ k) (h₀ : Opened found k₀) : IsItsLog found k₀ k where
  contents := by
    obtain ⟨cs, hcs, he, hd⟩ := h.contents
    exact ⟨cs, by rw [he, Command.map_decode?_encode hcs], hd⟩
  reads _ _ := rfl
  file := h₀.file ▸ h.appended
  written n c hw := by
    obtain ⟨hl, he⟩ | ⟨-, he⟩ := does_write_cases k n c
    · rw [he]
      exact ⟨hl, rfl⟩
    · rw [he] at hw
      cases hw
  refused n c a hw := by
    obtain ⟨-, he⟩ | ⟨hl, he⟩ := does_write_cases k n c
    · rw [he] at hw
      cases hw
    · rw [he]
      exact ⟨hl, rfl⟩

/-- **A store is its log.** Of a new store, or of one that was opened on a file, and after any
registrations, elections, joins and writes: its contents are its decoded entries applied in
order, so all servers read the same; its file is what was found there and the entries appended
since, in order; and a write adds its one entry if its server leads, and nothing if not. -/
theorem store_is_its_log (h₀ : Opened found k₀) {ds : List Deed} (hds : ∀ d ∈ ds, d.Fits) :
    IsItsLog found k₀ (k₀.run ds) :=
  (h₀.copied.run hds).isItsLog h₀

/-- Servers come, one leads and then another, and each writes while it leads and while not. -/
def handover : List Deed :=
  [.register "a" "a:1", .write "a" (.set "x" [1]), .elect "a", .write "a" (.set "k" [7]),
    .join "a" "b" "b:1", .elect "b", .write "a" (.delete "é"), .write "b" (.delete "é"),
    .stepDown, .follow "c:1", .write "b" (.set "k" [])]

/-- The file holds a key set twice and deleted, and an append that was cut short. -/
theorem store_is_its_log_of_handover :
    let cs : List Command := [.set "k" [1], .set "k" [2, 3], .delete "k", .set "é" []]
    let bs := Log.encodings cs ++ (Command.set "k" [4, 5]).encode.take 22
    ∃ k₀, Opened (some bs) k₀ ∧ (∀ d ∈ handover, d.Fits) ∧
      IsItsLog (some bs) k₀ (k₀.run handover) := by
  intro cs bs
  have hr : Log.replay bs = .ok cs :=
    Log.replay_encodings_torn (by decide) (by decide) (by decide)
  have h₀ : Opened (some bs) _ := .on (Place.openCluster_eq_ok_iff.2 ⟨cs, hr, rfl⟩)
  have hds : ∀ d ∈ handover, d.Fits := by decide
  exact ⟨_, h₀, hds, store_is_its_log h₀ hds⟩

end Cluster

end LockCell
