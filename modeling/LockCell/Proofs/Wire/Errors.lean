import LockCell.Proofs.Json.Record
import LockCell.Proofs.Json.Union
import LockCell.Wire.Errors

/-
  LockCell.Proofs.Wire.Errors — modes, refusals, faults, commands and replies survive
  their text, whatever names and texts they hold.
-/

namespace LockCell.Wire

open Json

variable {α β γ : Type} {n : Nat}

/-! ## Small records -/

theorem survives_record₁ {f : FieldSpec α} {a : α} (ha : f.Survives n a) :
    (record₁ f).Survives (n + 1) a :=
  Codec.Survives.map (Fields.survives_codec false (And.intro ha trivial) (by simp [Fields.names]))
    rfl

theorem survives_record₂ {f : FieldSpec α} {g : FieldSpec β} {a : α} {b : β}
    (ha : f.Survives n a) (hb : g.Survives n b) (hn : [f.name, g.name].Nodup) :
    (record₂ f g).Survives (n + 1) (a, b) :=
  Codec.Survives.map (Fields.survives_codec false (And.intro ha ⟨hb, trivial⟩) hn) rfl

theorem survives_record₃ {f : FieldSpec α} {g : FieldSpec β} {h : FieldSpec γ} {a : α} {b : β}
    {c : γ} (ha : f.Survives n a) (hb : g.Survives n b) (hc : h.Survives n c)
    (hn : [f.name, g.name, h.name].Nodup) : (record₃ f g h).Survives (n + 1) (a, b, c) :=
  Codec.Survives.map (Fields.survives_codec false (And.intro ha ⟨hb, hc, trivial⟩) hn) rfl

theorem survives_required {c : Codec α} {a : α} (name : String) (h : c.Survives n a) :
    (FieldSpec.required name c).Survives n a :=
  FieldSpec.survives_of_written rfl h

theorem survives_name (name : String) (k : String) :
    (FieldSpec.required name .text).Survives 0 k :=
  survives_required name (Codec.survives_text k)

/-! ## Modes, refusals and faults -/

theorem survives_mode (m : Mode) : mode.Survives 0 m := by
  intro depth _ rest _
  refine Variant.gives_read_name depth ?_
  cases m <;> rfl

theorem survives_pathRecord (p : Path) : pathRecord.Survives 1 p :=
  survives_record₁ (survives_name _ p)

theorem survives_clientRecord (c : Client) : clientRecord.Survives 1 c :=
  survives_record₁ (survives_name _ c)

theorem survives_ownerRecord (c : Client) (p : Path) : ownerRecord.Survives 1 (c, p) :=
  survives_record₂ (survives_name _ c) (survives_name _ p) (by decide)

theorem survives_modeRecord (m : Mode) : modeRecord.Survives 1 m :=
  survives_record₁ (survives_required _ (survives_mode m))

theorem survives_invariantRecord (p : Path) (d : String) : invariantRecord.Survives 1 (p, d) :=
  survives_record₂ (survives_name _ p) (survives_name _ d) (by decide)

theorem survives_lockError (e : LockError) : lockError.Survives 2 e := by
  cases e with
  | notOpened p =>
    exact Variant.survives_of_holding rfl rfl rfl rfl (survives_pathRecord p)
  | alreadyOwned c p =>
    exact Variant.survives_of_holding rfl rfl rfl rfl (survives_ownerRecord c p)
  | notOwned c p =>
    exact Variant.survives_of_holding rfl rfl rfl rfl (survives_ownerRecord c p)
  | notExclusive c p =>
    exact Variant.survives_of_holding rfl rfl rfl rfl (survives_ownerRecord c p)
  | invalidMode m =>
    exact Variant.survives_of_holding rfl rfl rfl rfl (survives_modeRecord m)
  | invariant p d =>
    exact Variant.survives_of_holding rfl rfl rfl rfl (survives_invariantRecord p d)

theorem survives_leader (name : String) (l : Option Addr) :
    (FieldSpec.nullable name .text).Survives 0 l := by
  refine FieldSpec.survives_of_written rfl ?_
  cases l with
  | none => exact Codec.survives_none _
  | some a => exact (Codec.survives_text a).some (shuns_writeString (by decide) a)

theorem survives_leaderRecord (l : Option Addr) : leaderRecord.Survives 1 l :=
  survives_record₁ (survives_leader _ l)

theorem survives_textRecord (t : String) : textRecord.Survives 1 t :=
  survives_record₁ (survives_name _ t)

theorem survives_fault (f : Fault) : fault.Survives 3 f := by
  cases f with
  | notLeader l =>
    exact (Variant.survives_of_holding rfl rfl rfl rfl (survives_leaderRecord l)).mono (by decide)
  | lock e => exact Variant.survives_of_holding rfl rfl rfl rfl (survives_lockError e)
  | sessionExists c | sessionNotFound c | sessionExpired c =>
    exact (Variant.survives_of_holding rfl rfl rfl rfl (survives_clientRecord c)).mono (by decide)
  | internal t =>
    exact (Variant.survives_of_holding rfl rfl rfl rfl (survives_textRecord t)).mono (by decide)

/-! ## Commands and replies -/

theorem survives_bytes (bs : Bytes) : bytes.Survives 1 bs := by
  refine Codec.survives_list fun b _ => ⟨Codec.Survives.map ?_ ?_, shuns_toDigits rfl _⟩
  · exact Codec.survives_nat b.toNat_lt (by decide +kernel)
  · exact UInt8.ofNat_toNat

theorem survives_setRecord (k : String) (bs : Bytes) : setRecord.Survives 2 (k, bs) :=
  survives_record₂ ((survives_name _ k).mono (by decide))
    (survives_required _ (survives_bytes bs)) (by decide)

theorem survives_keyRecord (k : String) : keyRecord.Survives 1 k :=
  survives_record₁ (survives_name _ k)

theorem survives_command (c : Command) : command.Survives 3 c := by
  cases c with
  | set k v => exact Variant.survives_of_holding rfl rfl rfl rfl (survives_setRecord k v)
  | delete k =>
    exact (Variant.survives_of_holding rfl rfl rfl rfl (survives_keyRecord k)).mono (by decide)

/-- A reply survives if its response does, and always if it is a fault. -/
theorem survives_reply {c : Codec α} (hn : 3 ≤ n) (r : Except Fault α)
    (h : ∀ a, r = .ok a → c.Survives n a) : (reply c).Survives (n + 1) r := by
  cases r with
  | ok a => exact Variant.survives_of_holding rfl rfl rfl rfl (h a rfl)
  | error f => exact Variant.survives_of_holding rfl rfl rfl rfl ((survives_fault f).mono hn)

end LockCell.Wire
