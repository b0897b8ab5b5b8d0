import LockCell.Log.Disk
import LockCell.Proofs.Log.Replay

/-
  LockCell.Proofs.Log.Crashes — what is left of a log after crashes.

  A life of a log is a run of opens, acknowledged writes and crashes on one directory. A
  crash comes in the middle of an append, of which any number of bytes is in the file by
  then; the writer is told nothing. `past` keeps every append, so that what an open reads
  can be held against it: `Accounts past cs` says that `cs` has every acknowledged command
  and, of the others, only such as got into the file whole, in the order they were made.

  - The file is what the appends left in it, one behind the other (`Kept.run`). An open
    does not cut it.
  - If nothing was written behind a torn append, an open reads all whole appends
    (`survives_of_clean`).
  - A write behind a torn append is lost although it was acknowledged (`lost_behind_tear`):
    it is read from where the tear begins. Only an entry whose own bytes go on as the torn
    piece does (its encoding is a prefix of the piece followed by itself) could be read
    there.
  - What was written before the first torn append is always read
    (`isPrefix_of_no_tear_before`).
-/

namespace LockCell

/-- An attempt to add a command to the log. -/
structure Append where
  command : Command
  /-- How many of its bytes got into the file. -/
  bytes : Nat
  /-- The writer was told that it is done. -/
  acknowledged : Bool
  deriving DecidableEq

namespace Append

/-- What it left in the file. -/
def left (a : Append) : Bytes := a.command.encode.take a.bytes

def Whole (a : Append) : Prop := a.command.encode.length ≤ a.bytes

def Torn (a : Append) : Prop := 0 < a.bytes ∧ a.bytes < a.command.encode.length

instance (a : Append) : Decidable a.Whole := inferInstanceAs (Decidable (_ ≤ _))

instance (a : Append) : Decidable a.Torn := inferInstanceAs (Decidable (_ ∧ _))

theorem left_of_whole {a : Append} (h : a.Whole) : a.left = a.command.encode :=
  List.take_of_length_le h

theorem left_ne_nil_of_whole {a : Append} (h : a.Whole) : a.left ≠ [] :=
  left_of_whole h ▸ a.command.encode_ne_nil

theorem left_of_neither {a : Append} (hw : ¬ a.Whole) (ht : ¬ a.Torn) : a.left = [] := by
  have : a.bytes = 0 := by
    simp only [Whole, Torn] at hw ht
    omega
  rw [left, this, List.take_zero]

end Append

/-! ## The past of a file -/

/-- What appends left in the file. -/
def inFile (past : List Append) : Bytes := past.flatMap Append.left

/-- The commands that got into the file whole. -/
def wholes (past : List Append) : List Command := (past.filter (·.Whole)).map (·.command)

/-- Nothing was written behind an append that was cut short. -/
def Clean (past : List Append) : Prop := past.Pairwise fun a b => a.Torn → b.left = []

instance (past : List Append) : Decidable (Clean past) :=
  inferInstanceAs (Decidable (List.Pairwise _ past))

/-- `cs` has every acknowledged command and, of the others, only such as got into the file
whole. -/
inductive Accounts : List Append → List Command → Prop
  | nil : Accounts [] []
  | kept {a : Append} {past : List Append} {cs : List Command} :
      a.Whole → Accounts past cs → Accounts (a :: past) (a.command :: cs)
  | lost {a : Append} {past : List Append} {cs : List Command} :
      a.acknowledged = false → Accounts past cs → Accounts (a :: past) cs

section Past

variable {past : List Append} {cs : List Command} {a : Append} {d : Command}

theorem inFile_cons (a : Append) (past : List Append) :
    inFile (a :: past) = a.left ++ inFile past :=
  rfl

theorem inFile_append (past post : List Append) :
    inFile (past ++ post) = inFile past ++ inFile post := List.flatMap_append

/-- A write that is done leaves its entry. -/
theorem inFile_written (d : Command) : inFile [⟨d, d.encode.length, true⟩] = d.encode := by
  simp [inFile, Append.left]

theorem wholes_cons_of_whole (h : a.Whole) : wholes (a :: past) = a.command :: wholes past := by
  simp [wholes, h]

theorem wholes_cons_of_not_whole (h : ¬ a.Whole) : wholes (a :: past) = wholes past := by
  simp [wholes, h]

theorem wholes_fit (h : ∀ a ∈ past, a.command.Fits) : ∀ c ∈ wholes past, c.Fits := by
  intro c hc
  simp only [wholes, List.mem_map, List.mem_filter] at hc
  obtain ⟨a, ⟨ha, -⟩, rfl⟩ := hc
  exact h a ha

/-- Appends that left nothing left no whole command. -/
theorem wholes_eq_nil (h : ∀ a ∈ past, a.left = []) : wholes past = [] := by
  simp only [wholes, List.map_eq_nil_iff, List.filter_eq_nil_iff, decide_eq_true_eq]
  exact fun a ha hw => Append.left_ne_nil_of_whole hw (h a ha)

theorem inFile_eq_nil (h : ∀ a ∈ past, a.left = []) : inFile past = [] :=
  List.flatMap_eq_nil_iff.2 h

/-- Without a tear the file is a row of entries. -/
theorem inFile_of_no_tear (h : ∀ a ∈ past, ¬ a.Torn) :
    inFile past = Log.encodings (wholes past) := by
  induction past with
  | nil => rfl
  | cons a past ih =>
    obtain ⟨ha, hp⟩ := List.forall_mem_cons.1 h
    rw [inFile_cons, ih hp]
    by_cases hw : a.Whole
    · rw [wholes_cons_of_whole hw, Append.left_of_whole hw, Log.encodings_cons]
    · rw [wholes_cons_of_not_whole hw, Append.left_of_neither hw ha, List.nil_append]

/-- With nothing behind the tear, the torn piece follows the whole entries. -/
theorem inFile_of_torn (hc : Clean past) (ha : a ∈ past) (ht : a.Torn) :
    inFile past = Log.encodings (wholes past) ++ a.left := by
  induction past with
  | nil => cases ha
  | cons b past ih =>
    obtain ⟨hb, hp⟩ := List.pairwise_cons.1 hc
    obtain rfl | ha := List.mem_cons.1 ha
    · have hl : ∀ b ∈ past, b.left = [] := fun b h => hb b h ht
      have hw : ¬ a.Whole := by
        simp only [Append.Torn, Append.Whole] at ht ⊢
        omega
      simp [inFile_cons, inFile_eq_nil hl, wholes_cons_of_not_whole hw, wholes_eq_nil hl]
    · have hl : a.left ≠ [] := by
        simp only [Append.left, ne_eq, List.take_eq_nil_iff, not_or]
        exact ⟨Nat.pos_iff_ne_zero.1 ht.1, a.command.encode_ne_nil⟩
      have hb : ¬ b.Torn := fun h => hl (hb a ha h)
      rw [inFile_cons, ih hp ha]
      by_cases hw : b.Whole
      · rw [wholes_cons_of_whole hw, Append.left_of_whole hw, Log.encodings_cons, List.append_assoc]
      · rw [wholes_cons_of_not_whole hw, Append.left_of_neither hw hb, List.nil_append]

theorem replay_of_clean (hf : ∀ a ∈ past, a.command.Fits) (hc : Clean past) :
    Log.replay (inFile past) = .ok (wholes past) := by
  by_cases h : ∃ a ∈ past, a.Torn
  · obtain ⟨a, ha, ht⟩ := h
    rw [inFile_of_torn hc ha ht]
    exact Log.replay_encodings_torn (wholes_fit hf) (hf a ha) ht.2
  · rw [inFile_of_no_tear fun a ha ht => h ⟨a, ha, ht⟩]
    exact Log.replay_exact (wholes_fit hf)

theorem accounts_wholes (h : ∀ a ∈ past, a.acknowledged → a.Whole) :
    Accounts past (wholes past) := by
  induction past with
  | nil => exact .nil
  | cons a past ih =>
    obtain ⟨ha, hp⟩ := List.forall_mem_cons.1 h
    by_cases hw : a.Whole
    · rw [wholes_cons_of_whole hw]
      exact .kept hw (ih hp)
    · rw [wholes_cons_of_not_whole hw]
      exact .lost (by simpa using mt ha hw) (ih hp)

theorem Accounts.sublist_wholes (h : Accounts past cs) : cs.Sublist (wholes past) := by
  induction h with
  | nil => exact .slnil
  | kept hw _ ih =>
    rw [wholes_cons_of_whole hw]
    exact ih.cons_cons _
  | lost _ _ ih => exact ih.trans (((List.sublist_cons_self _ _).filter _).map _)

/-- The newest append is accounted for at the end. -/
theorem Accounts.of_concat (h : Accounts (past ++ [a]) cs) (ha : a.acknowledged) :
    ∃ cs', cs = cs' ++ [a.command] ∧ Accounts past cs' := by
  induction past generalizing cs with
  | nil =>
    cases h with
    | kept _ h => cases h; exact ⟨[], rfl, .nil⟩
    | lost hl _ => simp [ha] at hl
  | cons b past ih =>
    cases h with
    | kept hw hr =>
      obtain ⟨cs', rfl, h⟩ := ih hr
      exact ⟨_, rfl, .kept hw h⟩
    | lost hl hr =>
      obtain ⟨cs', rfl, h⟩ := ih hr
      exact ⟨cs', rfl, .lost hl h⟩

end Past

/-! ## Lives of a log -/

namespace Disk

/-- A write to the cell that is open on the disk. -/
def write (d : Disk) : Command → Answer × Disk
  | .set key v => d.run (.set key v)
  | .delete key => d.run (.delete key)

end Disk

/-- A disk, and every append that was ever made to its log. -/
structure Life where
  disk : Disk := ⟨.vacant, none⟩
  past : List Append := []

namespace Life

inductive Act where
  /-- The cell is opened, or closed and opened again. -/
  | opens
  | write (c : Command)
  /-- The cell ends after so many bytes of an append are in the file. -/
  | crash (c : Command) (bytes : Nat)

/-- Its command fits into an entry. -/
def Act.Fits : Act → Prop
  | opens => True
  | write c | crash c _ => c.Fits

instance (a : Act) : Decidable a.Fits := by
  cases a <;> unfold Act.Fits <;> infer_instance

/-- Writes and crashes happen to an open cell only. -/
def step (l : Life) : Act → Life
  | .opens => { l with disk := (Disk.start l.disk.place).2 }
  | .write c =>
    match l.disk.write c with
    | (some (.ok _), d) => ⟨d, l.past ++ [⟨c, c.encode.length, true⟩]⟩
    | (_, d) => { l with disk := d }
  | .crash c n =>
    match l.disk.cluster with
    | none => l
    | some _ =>
      let d := (l.disk.run (.append (c.encode.take n))).2
      ⟨⟨d.place, none⟩, l.past ++ [⟨c, n, false⟩]⟩

def run (acts : List Act) : Life := acts.foldl step {}

/-- The next open succeeds and reads the log `cs`, and the contents are what comes of it. -/
def Reopens (l : Life) (cs : List Command) : Prop :=
  ∃ k, l.disk.place.openCluster = .ok k ∧ k.entries = cs.map Command.encode ∧
    k.contents = .ofCommands cs

/-- The next open reads a log that accounts for the past. -/
def Survives (l : Life) : Prop := ∃ cs, l.Reopens cs ∧ Accounts l.past cs

/-- The file is what the appends left in it, and an open cell is at its end. -/
structure Kept (l : Life) : Prop where
  place : l.disk.place.openCluster = Cluster.ofFile (inFile l.past)
  cluster : ∀ k, l.disk.cluster = some k →
    k.leads Disk.node ∧ k.file = some (inFile l.past)
  fits : ∀ a ∈ l.past, a.command.Fits
  whole : ∀ a ∈ l.past, a.acknowledged → a.Whole

variable {l : Life} {cs : List Command}

theorem kept_start : Kept {} where
  place := rfl
  cluster _ h := by cases h
  fits _ h := by cases h
  whole _ h := by cases h

theorem write_eq {k : Cluster} {d : Disk} (h : d.cluster = some k) (hk : k.leads Disk.node)
    (c : Command) : d.write c = (some (.ok none), d.keep (k.commit c)) := by
  cases c <;> simp [Disk.write, Disk.run, h, Store.set, Store.delete, Cluster.storeOf,
    Cluster.whenLeading, hk]

theorem step_write {k : Cluster} (h : l.disk.cluster = some k) (hk : k.leads Disk.node)
    (c : Command) : l.step (.write c) =
      ⟨l.disk.keep (k.commit c), l.past ++ [⟨c, c.encode.length, true⟩]⟩ := by
  simp only [step, write_eq h hk]

theorem step_crash {k : Cluster} (h : l.disk.cluster = some k) {bs : Bytes} (hf : k.file = some bs)
    (c : Command) (n : Nat) : l.step (.crash c n) =
      ⟨⟨.file (bs ++ c.encode.take n), none⟩, l.past ++ [⟨c, n, false⟩]⟩ := by
  simp [step, h, Disk.run, Disk.keep, hf]

theorem file_of_ofFile {bs : Bytes} {k : Cluster} (h : Cluster.ofFile bs = .ok k) :
    k.file = some bs := by
  simp only [Cluster.ofFile] at h
  split at h
  · cases h
  · cases h
    rfl

/-- An open leaves the file as it finds it. -/
theorem Kept.opens (h : l.Kept) : (l.step .opens).Kept := by
  have hd : (l.step .opens).disk = (Disk.start l.disk.place).2 := rfl
  have hp : (l.step .opens).past = l.past := rfl
  simp only [Disk.start, h.place] at hd
  split at hd
  · exact { h with
      place := by rw [hd, hp]; exact h.place
      cluster := fun k hk => by rw [hd] at hk; cases hk }
  · rename_i k ho
    have hf : ((k.register Disk.node Disk.addr).elect Disk.node).file = some (inFile l.past) :=
      (file_of_ofFile ho : k.file = _)
    exact { h with
      place := by rw [hd, hp, hf]; rfl
      cluster := fun k' hk => by
        rw [hd] at hk
        cases hk
        exact ⟨by simp [Cluster.leads, Cluster.elect], hf⟩ }

theorem Kept.write (h : l.Kept) {c : Command} (hc : c.Fits) : (l.step (.write c)).Kept := by
  cases hk : l.disk.cluster with
  | none =>
    have : l.step (.write c) = l := by cases c <;> simp [step, Disk.write, Disk.run, hk]
    rwa [this]
  | some k =>
    obtain ⟨hl, hf⟩ := h.cluster k hk
    have hf : (k.commit c).file = some (inFile (l.past ++ [⟨c, c.encode.length, true⟩])) := by
      rw [inFile_append, inFile_written, Cluster.commit, hf]
      rfl
    rw [step_write hk hl]
    exact {
      place := by simp only [Disk.keep, hf]; rfl
      cluster := fun k' hk' => by
        cases hk'
        exact ⟨hl, hf⟩
      fits := by simpa [or_imp, forall_and, hc] using h.fits
      whole := by
        simp only [List.mem_append, List.mem_singleton, or_imp, forall_and, forall_eq]
        exact ⟨h.whole, fun _ => Nat.le_refl _⟩ }

theorem Kept.crash (h : l.Kept) {c : Command} (hc : c.Fits) (n : Nat) :
    (l.step (.crash c n)).Kept := by
  cases hk : l.disk.cluster with
  | none =>
    have : l.step (.crash c n) = l := by simp [step, hk]
    rwa [this]
  | some k =>
    obtain ⟨-, hf⟩ := h.cluster k hk
    rw [step_crash hk hf]
    exact {
      place := by
        rw [inFile_append]
        simp [Place.openCluster, inFile, Append.left]
      cluster := fun k' hk' => by cases hk'
      fits := by simpa [or_imp, forall_and, hc] using h.fits
      whole := by simpa [or_imp, forall_and] using h.whole }

theorem Kept.step (h : l.Kept) {a : Act} (ha : a.Fits) : (l.step a).Kept := by
  cases a with
  | opens => exact h.opens
  | write c => exact h.write ha
  | crash c n => exact h.crash ha n

theorem Kept.run {acts : List Act} (h : ∀ a ∈ acts, a.Fits) : (run acts).Kept := by
  suffices ∀ l : Life, l.Kept → (acts.foldl Life.step l).Kept from this {} kept_start
  induction acts with
  | nil => exact fun _ hl => hl
  | cons a acts ih =>
    obtain ⟨ha, hacts⟩ := List.forall_mem_cons.1 h
    exact fun l hl => ih hacts _ (hl.step ha)

/-! ## What an open reads -/

theorem ofFile_of_replay {bs : Bytes} (h : Log.replay bs = .ok cs) :
    ∃ k, Cluster.ofFile bs = .ok k ∧ k.entries = cs.map Command.encode ∧
      k.contents = .ofCommands cs := by
  simp only [Cluster.ofFile, h]
  exact ⟨_, rfl, rfl, rfl⟩

/-- The entries that are read are those at the head of the file. -/
theorem Kept.replay (h : l.Kept) (hr : l.Reopens cs) :
    ∃ ds, Log.replay (inFile l.past) = .ok ds ∧ ds.map Command.encode = cs.map Command.encode := by
  obtain ⟨k, ho, he, -⟩ := hr
  rw [h.place, Cluster.ofFile] at ho
  split at ho
  · cases ho
  · rename_i ds hds
    cases ho
    exact ⟨ds, hds, he⟩

/-- With nothing behind the tear, an open reads every append that is whole. -/
theorem Kept.survives_of_clean (h : l.Kept) (hc : Clean l.past) :
    l.Reopens (wholes l.past) ∧ Accounts l.past (wholes l.past) := by
  refine ⟨?_, accounts_wholes h.whole⟩
  rw [Reopens, h.place]
  exact ofFile_of_replay (replay_of_clean h.fits hc)

/-- An open leaves an open cell behind, unless the file cannot be read. -/
theorem Kept.reopened (h : l.Kept) (hc : Clean l.past) :
    ∃ k, (l.step .opens).disk.cluster = some k ∧ k.leads Disk.node := by
  obtain ⟨k, ho, -⟩ := (h.survives_of_clean hc).1
  have hd : (l.step .opens).disk = (Disk.start l.disk.place).2 := rfl
  rw [Disk.start, ho] at hd
  have hk := congrArg Disk.cluster hd
  exact ⟨_, hk, (h.opens.cluster _ hk).1⟩

/-- If what was read behind the whole entries accounts for one write more, it is this
write. -/
theorem eq_singleton_of_account {ws es : List Command} {d : Command} (hw : ∀ c ∈ ws, c.Fits)
    (hd : d.Fits) (hn : d ∉ ws) (hs : cs.Sublist ws)
    (he : (ws ++ es).map Command.encode = (cs ++ [d]).map Command.encode) :
    ∃ e, es = [e] ∧ e.encode = d.encode := by
  have hlen := congrArg List.length he
  simp only [List.length_map, List.length_append, List.length_singleton] at hlen
  have hle := hs.length_le
  match es with
  | [] =>
    have hlast : d.encode ∈ ws.map Command.encode := by simp_all
    obtain ⟨w, hws, hwd⟩ := List.mem_map.1 hlast
    exact absurd (Parse.encode_inj (hw w hws) hd hwd ▸ hws) hn
  | [e] =>
    obtain rfl := hs.eq_of_length (by simpa using hlen.symm)
    exact ⟨e, rfl, by simpa using he⟩
  | e :: f :: es =>
    simp only [List.length_cons] at hlen
    omega

/-- A write behind a torn piece is acknowledged, and no reading of the file has it, unless
its bytes repeat the piece. -/
theorem Kept.lost_behind_tear (h : l.Kept) (hc : Clean l.past) {a : Append} (ha : a ∈ l.past)
    (ht : a.Torn) {d : Command} (hd : d.Fits) (hn : d ∉ wholes l.past)
    (hp : ¬ d.encode <+: a.left ++ d.encode) :
    ((l.step .opens).step (.write d)).past = l.past ++ [⟨d, d.encode.length, true⟩] ∧
      ¬ ((l.step .opens).step (.write d)).Survives := by
  obtain ⟨k, hk, hl⟩ := h.reopened hc
  have hpast : ((l.step .opens).step (.write d)).past = l.past ++ [⟨d, d.encode.length, true⟩] := by
    rw [step_write hk hl]
    rfl
  refine ⟨hpast, ?_⟩
  rintro ⟨cs, hr, hacc⟩
  rw [hpast] at hacc
  obtain ⟨cs', rfl, hacc'⟩ := hacc.of_concat rfl
  -- The log is the whole commands and what is read from the tear on.
  obtain ⟨ds, hds, he⟩ := (h.opens.write hd).replay hr
  rw [hpast, inFile_append, inFile_written, inFile_of_torn hc ha ht, List.append_assoc] at hds
  obtain ⟨es, hes, rfl⟩ := Log.exists_of_replay_encodings (wholes_fit h.fits) hds
  obtain ⟨e, rfl, hed⟩ :=
    eq_singleton_of_account (wholes_fit h.fits) hd hn hacc'.sublist_wholes he
  have hpre := Log.encodings_isPrefix_of_replay hes
  rw [Log.encodings_cons, Log.encodings_nil, List.append_nil, hed] at hpre
  exact hp hpre

/-- What was written before the first torn append is read by every open that succeeds. -/
theorem Kept.isPrefix_of_no_tear_before (h : l.Kept) {pre post : List Append}
    (hp : l.past = pre ++ post) (hn : ∀ a ∈ pre, ¬ a.Torn) {k : Cluster}
    (ho : l.disk.place.openCluster = .ok k) : (wholes pre).map Command.encode <+: k.entries := by
  rw [h.place, hp, inFile_append, inFile_of_no_tear hn, Cluster.ofFile] at ho
  have hf : ∀ a ∈ pre, a.command.Fits := fun a ha => h.fits a (hp ▸ List.mem_append_left _ ha)
  split at ho
  · cases ho
  · rename_i ds hds
    cases ho
    obtain ⟨es, -, rfl⟩ := Log.exists_of_replay_encodings (wholes_fit hf) hds
    simp

/-- **Acknowledged writes survive until something is written behind a torn append.** While
the file is clean, the next open succeeds and its log is every append that got into the
file whole, the acknowledged ones among them. A write behind a tear is acknowledged and
lost, unless its entry repeats the torn piece. In any case, what was written before the
first tear is read as long as the file can be opened. -/
theorem survives_until_write_behind_tear (acts : List Act) (hf : ∀ a ∈ acts, a.Fits) :
    (Clean (run acts).past →
      (run acts).Reopens (wholes (run acts).past) ∧
        Accounts (run acts).past (wholes (run acts).past)) ∧
    (Clean (run acts).past → ∀ a ∈ (run acts).past, a.Torn → ∀ d : Command, d.Fits →
      d ∉ wholes (run acts).past → ¬ d.encode <+: a.left ++ d.encode →
      (run (acts ++ [.opens, .write d])).past =
          (run acts).past ++ [⟨d, d.encode.length, true⟩] ∧
        ¬ (run (acts ++ [.opens, .write d])).Survives) ∧
    ∀ pre post, (run acts).past = pre ++ post → (∀ a ∈ pre, ¬ a.Torn) →
      ∀ k, (run acts).disk.place.openCluster = .ok k →
        (wholes pre).map Command.encode <+: k.entries := by
  have h := Kept.run hf
  refine ⟨h.survives_of_clean, fun hc a ha ht d hd hn hp => ?_, fun pre post hpp hn k ho =>
    h.isPrefix_of_no_tear_before hpp hn ho⟩
  have hrun : run (acts ++ [.opens, .write d]) = ((run acts).step .opens).step (.write d) := by
    simp [run, List.foldl_append]
  rw [hrun]
  exact h.lost_behind_tear hc ha ht hd hn hp

/-- Two appends, the second cut after its first byte. -/
theorem past_of_torn_append :
    (run [.opens, .write (.set "keep" []), .crash (.set "a" []) 1]).past =
      [⟨.set "keep" [], 24, true⟩, ⟨.set "a" [], 1, false⟩] := by
  decide +kernel

/-- One byte of an append is enough to lose the next write. -/
theorem survives_until_write_behind_first_byte :
    (run [.opens, .write (.set "keep" []), .crash (.set "a" []) 1]).Reopens [.set "keep" []] ∧
      ¬ (run [.opens, .write (.set "keep" []), .crash (.set "a" []) 1, .opens,
        .write (.set "b" [])]).Survives := by
  have h := survives_until_write_behind_tear
    [.opens, .write (.set "keep" []), .crash (.set "a" []) 1] (by decide)
  rw [past_of_torn_append] at h
  have hc : Clean [⟨.set "keep" [], 24, true⟩, ⟨.set "a" [], 1, false⟩] := by decide
  exact ⟨(h.1 hc).1, (h.2.1 hc ⟨.set "a" [], 1, false⟩ (by decide) (by decide) (.set "b" [])
    (by decide) (by decide) (by decide)).2⟩

/-- Not every acknowledged write survives: the log that is read after a crash and one more
write is without that write. -/
theorem not_survives_after_tear :
    ¬ ∀ acts : List Act, (∀ a ∈ acts, a.Fits) → (run acts).Survives := by
  intro h
  have hk : (run [.opens, .write (.set "keep" []), .crash (.set "a" []) 1]).Kept := .run (by decide)
  have hl := @hk.lost_behind_tear
  rw [past_of_torn_append] at hl
  exact (hl (by decide) (a := ⟨.set "a" [], 1, false⟩) (by decide) (by decide)
    (d := .set "b" []) (by decide) (by decide) (by decide)).2
    (h [.opens, .write (.set "keep" []), .crash (.set "a" []) 1, .opens, .write (.set "b" [])]
      (by decide))

end Life

end LockCell
