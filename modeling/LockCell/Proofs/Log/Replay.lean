import LockCell.Log.Replay
import Mathlib.Algebra.Group.Nat.Defs
import Mathlib.Data.List.Basic

/-
  LockCell.Proofs.Log.Replay — reading a log gives back what was written to it.

  `Reads p x a`: the reader `p` reads `a` off the bytes `x`, whatever follows them, and
  every proper part of `x` is too short for it. Readers that are run one after the other
  read what was written one after the other (`Reads.bind`), so each part of an entry has
  its lemma and the entry is made of them (`reads_command`). A replay then takes whole
  entries off the head of a file (`replay_encodings`) and stops in front of a part of one
  (`replay_encodings_torn`).

  The other way, the bytes that an entry was read off are its own (`encode_of_command`): a
  file begins with the encodings of the entries that are read off it.

  The length of a key or a value has to fit into its eight bytes (`Command.Fits`).
-/

namespace LockCell

/-! ## Numbers and texts -/

theorem ofLittleEndian_littleEndian (k n : Nat) :
    ofLittleEndian (littleEndian k n) = n % 256 ^ k := by
  induction k generalizing n with
  | zero => simp [littleEndian, ofLittleEndian, Nat.mod_one]
  | succ k ih =>
    simp only [littleEndian, ofLittleEndian, ih, UInt8.toNat_ofNat']
    rw [show 256 ^ (k + 1) = 256 * 256 ^ k from Nat.pow_succ', Nat.mod_mul]

theorem littleEndian_ofLittleEndian (bs : Bytes) :
    littleEndian bs.length (ofLittleEndian bs) = bs := by
  induction bs with
  | nil => rfl
  | cons b r ih =>
    have hb : UInt8.ofNat (b.toNat + 256 * ofLittleEndian r) = b := by
      have := b.toNat_lt
      apply UInt8.toNat_inj.1
      rw [UInt8.toNat_ofNat']
      omega
    have hr : (b.toNat + 256 * ofLittleEndian r) / 256 = ofLittleEndian r := by
      have := b.toNat_lt
      omega
    simp only [ofLittleEndian, List.length_cons, littleEndian, hb, hr, ih]

theorem utf8_of_ofUtf8? {bs : Bytes} {s : String} (h : ofUtf8? bs = some s) : utf8 s = bs := by
  simp only [ofUtf8?, String.fromUTF8?] at h
  split at h
  · cases h
    rfl
  · cases h

namespace Command

/-- The lengths in the entry fit into the bytes that they have there. -/
def Fits : Command → Prop
  | set k v => (utf8 k).length < 256 ^ 8 ∧ v.length < 256 ^ 8
  | delete k => (utf8 k).length < 256 ^ 8

instance (c : Command) : Decidable c.Fits := by
  cases c <;> unfold Fits <;> infer_instance

theorem encode_ne_nil (c : Command) : c.encode ≠ [] := by
  cases c <;> simp [encode, littleEndian]

end Command

namespace Parse

/-! ## Readers and what they read -/

/-- `p` reads `a` off exactly the bytes `x`. -/
structure Reads {α : Type} (p : Bytes → Parse α) (x : Bytes) (a : α) : Prop where
  whole : ∀ r, p (x ++ r) = value a r
  torn : ∀ n < x.length, p (x.take n) = short

namespace Reads

variable {α β : Type} {p : Bytes → Parse α} {f : α → Bytes → Parse β} {x y : Bytes} {a : α} {b : β}

theorem bind (hp : Reads p x a) (hf : Reads (f a) y b) :
    Reads (fun bs => (p bs).bind f) (x ++ y) b where
  whole r := by
    rw [List.append_assoc, hp.whole]
    exact hf.whole r
  torn n hn := by
    rw [List.take_append]
    -- The cut is before the end of `x`, or behind it and inside `y`.
    obtain h | h := Nat.lt_or_ge n x.length
    · rw [Nat.sub_eq_zero_of_le (by omega), List.take_zero, List.append_nil, hp.torn n h]
      rfl
    · rw [List.take_of_length_le h, hp.whole]
      refine hf.torn _ ?_
      rw [List.length_append] at hn
      omega

/-- What is made of a value without reading on. -/
theorem map (hp : Reads p x a) (hf : ∀ r, f a r = value b r) :
    Reads (fun bs => (p bs).bind f) x b := by
  have h : Reads (f a) [] b := ⟨hf, fun n hn => absurd hn (Nat.not_lt_zero n)⟩
  simpa using hp.bind h

theorem of_take (x : Bytes) : Reads (take x.length) x x where
  whole r := by simp [take]
  torn n hn := by
    have : min n x.length < x.length := by omega
    simp [take, this]

theorem of_number {k n : Nat} (h : n < 256 ^ k) : Reads (number k) (littleEndian k n) n := by
  have ht := of_take (littleEndian k n)
  rw [length_littleEndian] at ht
  exact ht.map fun r => by rw [ofLittleEndian_littleEndian, Nat.mod_eq_of_lt h]

theorem of_block {d : Bytes} (h : d.length < 256 ^ 8) : Reads block (LockCell.block d) d :=
  (of_number h).bind (of_take d)

theorem of_text {s : String} (h : (utf8 s).length < 256 ^ 8) :
    Reads text (LockCell.block (utf8 s)) s :=
  (of_block h).map fun r => by simp [ofUtf8?_utf8]

end Reads

theorem reads_command {c : Command} (h : c.Fits) : Reads command c.encode c := by
  unfold command
  cases c with
  | set k v =>
    have hk : Reads text _ k := .of_text h.1
    have hv : Reads block _ v := .of_block h.2
    rw [Command.encode, List.append_assoc]
    exact (Reads.of_number (by decide)).bind (hk.bind (hv.map fun _ => rfl))
  | delete k =>
    have hk : Reads text _ k := .of_text h
    exact (Reads.of_number (by decide)).bind (hk.map fun _ => rfl)

theorem encode_inj {c d : Command} (hc : c.Fits) (hd : d.Fits) (h : c.encode = d.encode) :
    c = d := by
  have hcd := (reads_command hc).whole []
  rw [h, (reads_command hd).whole] at hcd
  cases hcd
  rfl

/-! ## What was read is what was written -/

theorem eq_of_take {n : Nat} {bs d r : Bytes} (h : take n bs = value d r) :
    bs = d ++ r ∧ d.length = n := by
  simp only [take] at h
  split at h
  · cases h
  · cases h
    simp
    omega

theorem eq_of_number {k n : Nat} {bs r : Bytes} (h : number k bs = value n r) :
    bs = littleEndian k n ++ r := by
  obtain ⟨d, r', ht, he⟩ := bind_eq_value_iff.1 h
  obtain ⟨rfl, rfl⟩ := eq_of_take ht
  cases he
  rw [littleEndian_ofLittleEndian]

theorem eq_of_block {bs d r : Bytes} (h : block bs = value d r) :
    bs = LockCell.block d ++ r := by
  obtain ⟨n, r', hn, ht⟩ := bind_eq_value_iff.1 h
  obtain ⟨rfl, rfl⟩ := eq_of_take ht
  rw [eq_of_number hn, LockCell.block, List.append_assoc]

theorem eq_of_text {bs r : Bytes} {s : String} (h : text bs = value s r) :
    bs = LockCell.block (utf8 s) ++ r := by
  obtain ⟨d, r', hb, he⟩ := bind_eq_value_iff.1 h
  split at he
  · rename_i hs
    cases he
    rw [utf8_of_ofUtf8? hs]
    exact eq_of_block hb
  · cases he

theorem encode_of_command {bs r : Bytes} {c : Command} (h : command bs = value c r) :
    bs = c.encode ++ r := by
  obtain ⟨tag, r₁, hn, h⟩ := bind_eq_value_iff.1 h
  have hn := eq_of_number hn
  split at h
  · obtain ⟨k, r₂, hk, h⟩ := bind_eq_value_iff.1 h
    obtain ⟨v, r₃, hv, he⟩ := bind_eq_value_iff.1 h
    cases he
    rw [hn, eq_of_text hk, eq_of_block hv, Command.encode]
    simp only [List.append_assoc]
  · obtain ⟨k, r₂, hk, he⟩ := bind_eq_value_iff.1 h
    cases he
    rw [hn, eq_of_text hk, Command.encode, List.append_assoc]
  · cases h

end Parse

namespace Log

/-! ## Replays -/

/-- The bytes of a log of these entries. -/
def encodings (cs : List Command) : Bytes := cs.flatMap Command.encode

@[simp] theorem encodings_nil : encodings [] = [] := rfl

@[simp] theorem encodings_cons (c : Command) (cs : List Command) :
    encodings (c :: cs) = c.encode ++ encodings cs := rfl

theorem replay_of_short {bs : Bytes} (h : Parse.command bs = .short) : replay bs = .ok [] := by
  rw [replay]
  split <;> simp_all

theorem replay_of_value {bs r : Bytes} {c : Command} (h : Parse.command bs = .value c r) :
    replay bs = (replay r).map (c :: ·) := by
  rw [replay]
  split <;> simp_all
  split <;> simp_all [Except.map]

/-- Whole entries at the head of a file are read off it, whatever follows them. -/
theorem replay_encodings {cs : List Command} (h : ∀ c ∈ cs, c.Fits) (r : Bytes) :
    replay (encodings cs ++ r) = (replay r).map (cs ++ ·) := by
  induction cs with
  | nil => cases h : replay r <;> simp [h, Except.map]
  | cons c cs ih =>
    obtain ⟨hc, hcs⟩ := List.forall_mem_cons.1 h
    rw [encodings_cons, List.append_assoc, replay_of_value ((Parse.reads_command hc).whole _),
      ih hcs]
    cases replay r <;> rfl

theorem exists_of_replay_encodings {cs ds : List Command} (h : ∀ c ∈ cs, c.Fits) {r : Bytes}
    (hr : replay (encodings cs ++ r) = .ok ds) : ∃ es, replay r = .ok es ∧ ds = cs ++ es := by
  rw [replay_encodings h] at hr
  cases he : replay r with
  | error e =>
    rw [he] at hr
    cases hr
  | ok es =>
    rw [he] at hr
    cases hr
    exact ⟨es, rfl, rfl⟩

/-- A part of an entry at the end of a file goes unread. -/
theorem replay_encodings_torn {cs : List Command} (h : ∀ c ∈ cs, c.Fits) {c : Command}
    (hc : c.Fits) {n : Nat} (hn : n < c.encode.length) :
    replay (encodings cs ++ c.encode.take n) = .ok cs := by
  rw [replay_encodings h, replay_of_short ((Parse.reads_command hc).torn n hn)]
  simp [Except.map]

theorem replay_exact {cs : List Command} (h : ∀ c ∈ cs, c.Fits) :
    replay (encodings cs) = .ok cs := by
  have hn : 0 < (Command.delete "").encode.length := by decide
  simpa using replay_encodings_torn h (c := .delete "") (by decide) hn

/-- A file begins with the entries that are read off it. -/
theorem encodings_isPrefix_of_replay {bs : Bytes} {cs : List Command} (h : replay bs = .ok cs) :
    encodings cs <+: bs := by
  induction cs generalizing bs with
  | nil => exact List.nil_prefix
  | cons c cs ih =>
    rw [replay] at h
    split at h
    · cases h
    · cases h
    · rename_i c' r hc
      split at h
      · rename_i cs' hr
        cases h
        rw [Parse.encode_of_command hc, encodings_cons]
        exact (List.prefix_append_right_inj _).2 (ih hr)
      · cases h

end Log

end LockCell
