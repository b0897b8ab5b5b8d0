import LockCell.Log.Disk
import LockCell.Proofs.Log.Replay

/-
  LockCell.Proofs.Log.Opening — what a log's file has to be for a cell to open on it.

  A file is whole entries and a rest. Of a rest that is no entry there are two kinds, told
  by its bytes alone: it ends inside the tag, the key or the value (`RunsOut`), or it has a
  tag of no kind, or a key that is all there and is no text (`Spoilt`). A replay gives the
  entries in the first case and fails in the second, and there is no other case
  (`replay_eq_ok_iff`, `replay_eq_error_iff`). Since an entry is written in one way only,
  the entries of a cell's log are the bytes of the file that it was opened on
  (`openCluster_exact`).
-/

namespace LockCell

theorem ofLittleEndian_lt (bs : Bytes) : ofLittleEndian bs < 256 ^ bs.length := by
  induction bs with
  | nil => decide
  | cons b r ih =>
    have := b.toNat_lt
    rw [ofLittleEndian, List.length_cons, Nat.pow_succ]
    omega

namespace Parse

/-- A reader's three outcomes, told apart. -/
theorem bind_eq_short_iff {α β : Type} {p : Parse α} {f : α → Bytes → Parse β} :
    p.bind f = short ↔ p = short ∨ ∃ a r, p = value a r ∧ f a r = short := by
  cases p <;> simp [bind]

theorem bind_eq_corrupt_iff {α β : Type} {p : Parse α} {f : α → Bytes → Parse β}
    {e : Corruption} :
    p.bind f = corrupt e ↔ p = corrupt e ∨ ∃ a r, p = value a r ∧ f a r = corrupt e := by
  cases p <;> simp [bind]

/-! ## Numbers, blocks and texts -/

theorem take_ne_corrupt (n : Nat) (bs : Bytes) (e : Corruption) : take n bs ≠ corrupt e := by
  unfold take
  split <;> simp

theorem take_eq_short_iff {n : Nat} {bs : Bytes} : take n bs = short ↔ bs.length < n := by
  simp [take]

theorem number_ne_corrupt (k : Nat) (bs : Bytes) (e : Corruption) : number k bs ≠ corrupt e := by
  simp [number, bind_eq_corrupt_iff, take_ne_corrupt]

theorem number_eq_short_iff {k : Nat} {bs : Bytes} : number k bs = short ↔ bs.length < k := by
  simp [number, bind_eq_short_iff, take_eq_short_iff]

theorem number_eq_value_iff {k n : Nat} {bs r : Bytes} :
    number k bs = value n r ↔ bs = littleEndian k n ++ r ∧ n < 256 ^ k := by
  constructor
  · intro h
    refine ⟨eq_of_number h, ?_⟩
    obtain ⟨d, r', ht, he⟩ := bind_eq_value_iff.1 h
    cases he
    have hd := ofLittleEndian_lt d
    rwa [(eq_of_take ht).2] at hd
  · rintro ⟨rfl, hn⟩
    exact (Reads.of_number hn).whole r

theorem block_ne_corrupt (bs : Bytes) (e : Corruption) : block bs ≠ corrupt e := by
  simp [block, bind_eq_corrupt_iff, number_ne_corrupt, take_ne_corrupt]

theorem block_eq_value_iff {bs d r : Bytes} :
    block bs = value d r ↔ bs = LockCell.block d ++ r ∧ d.length < 256 ^ 8 := by
  constructor
  · intro h
    refine ⟨eq_of_block h, ?_⟩
    obtain ⟨n, r', hn, ht⟩ := bind_eq_value_iff.1 h
    rw [(eq_of_take ht).2]
    exact (number_eq_value_iff.1 hn).2
  · rintro ⟨rfl, hd⟩
    exact (Reads.of_block hd).whole r

end Parse

/-- The bytes end inside a block: in its length, or before there are as many as that says. -/
def CutShort (bs : Bytes) : Prop :=
  bs.length < 8 ∨ ∃ n d, bs = littleEndian 8 n ++ d ∧ n < 256 ^ 8 ∧ d.length < n

namespace Parse

theorem block_eq_short_iff {bs : Bytes} : block bs = short ↔ CutShort bs := by
  simp only [block, bind_eq_short_iff, number_eq_short_iff, number_eq_value_iff,
    take_eq_short_iff, CutShort, and_assoc]

theorem text_eq_short_iff {bs : Bytes} : text bs = short ↔ CutShort bs := by
  rw [text, bind_eq_short_iff, block_eq_short_iff]
  refine or_iff_left ?_
  rintro ⟨d, r, -, h⟩
  split at h <;> cases h

theorem text_eq_corrupt_iff {bs : Bytes} {e : Corruption} : text bs = corrupt e ↔
    e = .badText ∧ ∃ d r, bs = LockCell.block d ++ r ∧ d.length < 256 ^ 8 ∧ ofUtf8? d = none := by
  rw [text, bind_eq_corrupt_iff, or_iff_right (block_ne_corrupt bs e)]
  constructor
  · rintro ⟨d, r, hb, h⟩
    obtain ⟨hbs, hd⟩ := block_eq_value_iff.1 hb
    split at h
    · cases h
    · rename_i hn
      cases h
      exact ⟨rfl, d, r, hbs, hd, hn⟩
  · rintro ⟨rfl, d, r, hbs, hd, hn⟩
    exact ⟨d, r, block_eq_value_iff.2 ⟨hbs, hd⟩, by rw [hn]⟩

theorem text_eq_value_iff {bs r : Bytes} {s : String} :
    text bs = value s r ↔ bs = LockCell.block (utf8 s) ++ r ∧ (utf8 s).length < 256 ^ 8 := by
  constructor
  · intro h
    refine ⟨eq_of_text h, ?_⟩
    obtain ⟨d, r', hb, he⟩ := bind_eq_value_iff.1 h
    split at he
    · rename_i hs
      cases he
      rw [utf8_of_ofUtf8? hs]
      exact (block_eq_value_iff.1 hb).2
    · cases he
  · rintro ⟨rfl, hs⟩
    exact (Reads.of_text hs).whole r

end Parse

namespace Log

/-! ## What is no entry -/

/-- The bytes end inside an entry, though it may be an entry so far. -/
inductive RunsOut (bs : Bytes) : Prop
  /-- In the tag. -/
  | tag : bs.length < 4 → RunsOut bs
  /-- In the key. -/
  | key {tag : Nat} {r : Bytes} : tag < 2 → bs = littleEndian 4 tag ++ r → CutShort r →
      RunsOut bs
  /-- In the value. -/
  | value {k : String} {r : Bytes} : (utf8 k).length < 256 ^ 8 →
      bs = littleEndian 4 0 ++ (block (utf8 k) ++ r) → CutShort r → RunsOut bs

/-- No entry begins like this, and why. -/
inductive Spoilt (bs : Bytes) : Corruption → Prop
  | badTag {tag : Nat} {r : Bytes} : 2 ≤ tag → tag < 256 ^ 4 → bs = littleEndian 4 tag ++ r →
      Spoilt bs (.badTag tag)
  /-- All of the key is there. -/
  | badText {tag : Nat} {d r : Bytes} : tag < 2 → d.length < 256 ^ 8 → ofUtf8? d = none →
      bs = littleEndian 4 tag ++ (block d ++ r) → Spoilt bs .badText

end Log

namespace Parse

/-- A known tag is followed by a key, and that of a set by a value. -/
theorem command_eq {bs r : Bytes} {tag : Nat} (h : number 4 bs = value tag r) (ht : tag < 2) :
    command bs = (text r).bind fun k r =>
      if tag = 0 then (block r).bind fun v r => value (.set k v) r else value (.delete k) r := by
  rw [command, h]
  obtain rfl | rfl : tag = 0 ∨ tag = 1 := by omega
  · rfl
  · rfl

theorem command_of_badTag {bs r : Bytes} {tag : Nat} (h : number 4 bs = value tag r)
    (ht : 2 ≤ tag) : command bs = corrupt (.badTag tag) := by
  obtain ⟨n, rfl⟩ : ∃ n, tag = n + 2 := ⟨tag - 2, by omega⟩
  rw [command, h]
  rfl

theorem command_of_short {bs : Bytes} (h : number 4 bs = short) : command bs = short := by
  rw [command, h]
  rfl

theorem fits_of_command {bs r : Bytes} {c : Command} (h : command bs = value c r) : c.Fits := by
  obtain ⟨tag, r₁, hn, h⟩ := bind_eq_value_iff.1 h
  split at h
  · obtain ⟨k, r₂, hk, h⟩ := bind_eq_value_iff.1 h
    obtain ⟨v, r₃, hv, he⟩ := bind_eq_value_iff.1 h
    cases he
    exact ⟨(text_eq_value_iff.1 hk).2, (block_eq_value_iff.1 hv).2⟩
  · obtain ⟨k, r₂, hk, he⟩ := bind_eq_value_iff.1 h
    cases he
    exact (text_eq_value_iff.1 hk).2
  · cases h

theorem command_eq_short_iff {bs : Bytes} : command bs = short ↔ Log.RunsOut bs := by
  constructor
  · intro h
    cases hn : number 4 bs with
    | short => exact .tag (number_eq_short_iff.1 hn)
    | corrupt e => exact absurd hn (number_ne_corrupt 4 bs e)
    | value tag r =>
      obtain ⟨hbs, -⟩ := number_eq_value_iff.1 hn
      obtain ht | ht := Nat.lt_or_ge tag 2
      · rw [command_eq hn ht, bind_eq_short_iff] at h
        obtain hk | ⟨k, r', hk, hv⟩ := h
        · exact .key ht hbs (text_eq_short_iff.1 hk)
        · obtain ⟨rfl, hlen⟩ := text_eq_value_iff.1 hk
          split at hv
          · rename_i h₀
            rw [bind_eq_short_iff] at hv
            obtain hv | ⟨v, r'', -, hv⟩ := hv
            · exact .value hlen (h₀ ▸ hbs) (block_eq_short_iff.1 hv)
            · cases hv
          · cases hv
      · rw [command_of_badTag hn ht] at h
        cases h
  · intro h
    cases h with
    | tag h => exact command_of_short (number_eq_short_iff.2 h)
    | @key tag r ht hbs hr =>
      have hn : number 4 bs = value tag r := number_eq_value_iff.2 ⟨hbs, by omega⟩
      rw [command_eq hn ht, text_eq_short_iff.2 hr]
      rfl
    | @value k r hk hbs hr =>
      have hn : number 4 bs = value 0 _ := number_eq_value_iff.2 ⟨hbs, by decide⟩
      rw [command_eq hn (by decide), text_eq_value_iff.2 ⟨rfl, hk⟩]
      simp only [bind, if_true, block_eq_short_iff.2 hr]

theorem command_eq_corrupt_iff {bs : Bytes} {e : Corruption} :
    command bs = corrupt e ↔ Log.Spoilt bs e := by
  constructor
  · intro h
    cases hn : number 4 bs with
    | short =>
      rw [command_of_short hn] at h
      cases h
    | corrupt e => exact absurd hn (number_ne_corrupt 4 bs e)
    | value tag r =>
      obtain ⟨hbs, hlt⟩ := number_eq_value_iff.1 hn
      obtain ht | ht := Nat.lt_or_ge tag 2
      · rw [command_eq hn ht, bind_eq_corrupt_iff] at h
        obtain hk | ⟨k, r', -, hv⟩ := h
        · obtain ⟨rfl, d, r', rfl, hd, hnone⟩ := text_eq_corrupt_iff.1 hk
          exact .badText ht hd hnone hbs
        · split at hv
          · simp [bind_eq_corrupt_iff, block_ne_corrupt] at hv
          · cases hv
      · rw [command_of_badTag hn ht] at h
        cases h
        exact .badTag ht hlt hbs
  · intro h
    cases h with
    | @badTag tag r ht hlt hbs =>
      have hn : number 4 bs = value tag r := number_eq_value_iff.2 ⟨hbs, hlt⟩
      exact command_of_badTag hn ht
    | @badText tag d r ht hd hnone hbs =>
      have hn : number 4 bs = value tag (LockCell.block d ++ r) :=
        number_eq_value_iff.2 ⟨hbs, by omega⟩
      rw [command_eq hn ht, text_eq_corrupt_iff.2 ⟨rfl, d, r, rfl, hd, hnone⟩]
      rfl

end Parse

namespace Log

/-! ## Replays -/

theorem encodings_eq_flatten (cs : List Command) :
    encodings cs = (cs.map Command.encode).flatten := by
  rw [encodings, List.flatMap_def]

theorem replay_of_corrupt {bs : Bytes} {e : Corruption} (h : Parse.command bs = .corrupt e) :
    replay bs = .error e := by
  rw [replay]
  split <;> simp_all

/-- Whole entries come off a file up to the first bytes that are none. -/
theorem exists_rest (bs : Bytes) : ∃ cs r, bs = encodings cs ++ r ∧ (∀ c ∈ cs, c.Fits) ∧
    ∀ c r', Parse.command r ≠ .value c r' := by
  fun_induction replay bs with
  | case1 bs h => exact ⟨[], bs, rfl, by simp, by simp [h]⟩
  | case2 bs e h => exact ⟨[], bs, rfl, by simp, by simp [h]⟩
  | case3 bs c rest h _ _ ih | case4 bs c rest h _ _ ih =>
    obtain ⟨cs, r, rfl, hcs, hr⟩ := ih
    refine ⟨c :: cs, r, ?_, List.forall_mem_cons.2 ⟨Parse.fits_of_command h, hcs⟩, hr⟩
    rw [Parse.encode_of_command h, encodings_cons, List.append_assoc]

theorem replay_eq_ok_iff {bs : Bytes} {cs : List Command} : replay bs = .ok cs ↔
    ∃ r, bs = encodings cs ++ r ∧ (∀ c ∈ cs, c.Fits) ∧ RunsOut r := by
  constructor
  · intro h
    obtain ⟨ds, r, rfl, hds, hr⟩ := exists_rest bs
    rw [replay_encodings hds] at h
    cases hc : Parse.command r with
    | value c r' => exact absurd hc (hr c r')
    | short =>
      rw [replay_of_short hc, Except.map, Except.ok.injEq, List.append_nil] at h
      subst h
      exact ⟨r, rfl, hds, Parse.command_eq_short_iff.1 hc⟩
    | corrupt e =>
      rw [replay_of_corrupt hc] at h
      cases h
  · rintro ⟨r, rfl, hcs, hr⟩
    rw [replay_encodings hcs, replay_of_short (Parse.command_eq_short_iff.2 hr)]
    simp [Except.map]

/-- A part of an entry ends too early, and so do no bytes at all. -/
theorem runsOut_of_proper {r : Bytes}
    (h : r = [] ∨ ∃ c : Command, c.Fits ∧ r <+: c.encode ∧ r ≠ c.encode) : RunsOut r := by
  obtain rfl | ⟨c, hc, hr, hne⟩ := h
  · exact .tag (by decide)
  · have hlt : r.length < c.encode.length :=
      Nat.lt_of_le_of_ne hr.length_le fun e => hne (hr.eq_of_length e)
    rw [List.prefix_iff_eq_take.1 hr]
    exact Parse.command_eq_short_iff.1 ((Parse.reads_command hc).torn _ hlt)

theorem replay_eq_error_iff {bs : Bytes} {e : Corruption} : replay bs = .error e ↔
    ∃ cs r, bs = encodings cs ++ r ∧ (∀ c ∈ cs, c.Fits) ∧ Spoilt r e := by
  constructor
  · intro h
    obtain ⟨ds, r, rfl, hds, hr⟩ := exists_rest bs
    rw [replay_encodings hds] at h
    cases hc : Parse.command r with
    | value c r' => exact absurd hc (hr c r')
    | short =>
      rw [replay_of_short hc] at h
      cases h
    | corrupt e' =>
      rw [replay_of_corrupt hc] at h
      cases h
      exact ⟨ds, r, rfl, hds, Parse.command_eq_corrupt_iff.1 hc⟩
  · rintro ⟨cs, r, rfl, hcs, hr⟩
    rw [replay_encodings hcs, replay_of_corrupt (Parse.command_eq_corrupt_iff.2 hr)]
    rfl

end Log

/-! ## A cell is opened -/

namespace Place

theorem openCluster_eq_ok_iff {bs : Bytes} {k : Cluster} : (file bs).openCluster = .ok k ↔
    ∃ cs, Log.replay bs = .ok cs ∧
      k = { contents := .ofCommands cs, entries := cs.map Command.encode, file := some bs } := by
  simp only [openCluster, Cluster.ofFile]
  cases Log.replay bs with
  | error e => simp
  | ok cs => simp [eq_comm]

theorem openCluster_eq_error_iff {bs : Bytes} {e : Error} :
    (file bs).openCluster = .error e ↔ ∃ x, Log.replay bs = .error x ∧ e = .serialization x := by
  simp only [openCluster, Cluster.ofFile]
  cases Log.replay bs with
  | error x => simp [eq_comm]
  | ok cs => simp

/-- **Opening a log is exact.** A cell opens on whole entries that are followed by a proper part
of one, or by nothing; then its log has these entries, and its contents are theirs applied in
order. Whenever a cell opens on a file, the file is the entries of the cell's log, followed by
bytes that end inside an entry. It does not open exactly if behind some whole entries there is a
tag of no kind, or a key that is all there and is no text. -/
theorem openCluster_exact :
    (∀ (cs : List Command) (r : Bytes), (∀ c ∈ cs, c.Fits) →
      (r = [] ∨ ∃ c : Command, c.Fits ∧ r <+: c.encode ∧ r ≠ c.encode) →
        ∃ k, (file (Log.encodings cs ++ r)).openCluster = .ok k ∧
          k.entries = cs.map Command.encode ∧ k.contents = .ofCommands cs) ∧
    (∀ (bs : Bytes) (k : Cluster), (file bs).openCluster = .ok k →
      ∃ (cs : List Command) (r : Bytes), k.entries = cs.map Command.encode ∧
        k.contents = .ofCommands cs ∧ bs = k.entries.flatten ++ r ∧ Log.RunsOut r) ∧
    ∀ (bs : Bytes) (e : Error), (file bs).openCluster = .error e ↔
      ∃ (cs : List Command) (r : Bytes) (x : Corruption), bs = Log.encodings cs ++ r ∧
        (∀ c ∈ cs, c.Fits) ∧ Log.Spoilt r x ∧ e = .serialization x := by
  refine ⟨fun cs r hcs hr => ?_, fun bs k hk => ?_, fun bs e => ?_⟩
  · have ho := Log.replay_eq_ok_iff.2 ⟨r, rfl, hcs, Log.runsOut_of_proper hr⟩
    exact ⟨_, openCluster_eq_ok_iff.2 ⟨cs, ho, rfl⟩, rfl, rfl⟩
  · obtain ⟨cs, ho, rfl⟩ := openCluster_eq_ok_iff.1 hk
    obtain ⟨r, hbs, -, hr⟩ := Log.replay_eq_ok_iff.1 ho
    exact ⟨cs, r, rfl, rfl, Log.encodings_eq_flatten cs ▸ hbs, hr⟩
  · rw [openCluster_eq_error_iff]
    constructor
    · rintro ⟨x, hx, rfl⟩
      obtain ⟨cs, r, hbs, hcs, hr⟩ := Log.replay_eq_error_iff.1 hx
      exact ⟨cs, r, x, hbs, hcs, hr, rfl⟩
    · rintro ⟨cs, r, x, hbs, hcs, hr, rfl⟩
      exact ⟨x, Log.replay_eq_error_iff.2 ⟨cs, r, hbs, hcs, hr⟩, rfl⟩

/-- A key is set twice and deleted, and the last append was cut inside its value. -/
theorem openCluster_exact_of_cut :
    let cs : List Command := [.set "k" [1], .set "k" [2, 3], .delete "k", .set "é" []]
    let last : Command := .set "k" [4, 5]
    let r := last.encode.take 22
    (∀ c ∈ cs, c.Fits) ∧ (last.Fits ∧ r <+: last.encode ∧ r ≠ last.encode) ∧
      (∃ k, (file (Log.encodings cs ++ r)).openCluster = .ok k ∧
        k.entries = cs.map Command.encode ∧ k.contents = .ofCommands cs) ∧
      ∃ e, (file (Log.encodings cs ++ [0, 0, 0, 0, 1, 0, 0, 0, 0, 0, 0, 0, 255])).openCluster =
        .error e := by
  intro cs last r
  have hcs : ∀ c ∈ cs, c.Fits := by decide
  have hr : last.Fits ∧ r <+: last.encode ∧ r ≠ last.encode := by decide
  refine ⟨hcs, hr, openCluster_exact.1 cs r hcs (Or.inr ⟨last, hr⟩), ?_⟩
  -- a key of one byte that begins no text
  have hs : Log.Spoilt [0, 0, 0, 0, 1, 0, 0, 0, 0, 0, 0, 0, 255] .badText :=
    @Log.Spoilt.badText _ 0 [255] [] (by decide) (by decide) (by decide) (by decide)
  exact ⟨_, (openCluster_exact.2.2 _ _).2 ⟨cs, _, _, rfl, hcs, hs, rfl⟩⟩

end Place

end LockCell
