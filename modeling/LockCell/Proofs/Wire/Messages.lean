import LockCell.Proofs.Text.Stamp
import LockCell.Proofs.Wire.Errors
import LockCell.Wire.Messages

/-
  LockCell.Proofs.Wire.Messages — what goes over the wire survives its text.

  `Kind` lists the types of the values that clients and servers write to each other, with
  the codec of each. A value fits (`Kind.Fits`) if its numbers have 64 bits and its year
  four digits; there is no other limit, on names, texts, maps or modes. Every value that
  fits is read back from its whole text (`readAll_toText`). So no two of them have the same
  text, and a keep-alive that claims no locks is told from one that makes no claims.
-/

namespace LockCell.Wire

open Json

/-! ## Requests -/

theorem survives_initSession (c : Client) : initSession.Survives 1 c :=
  survives_record₁ (survives_name _ c)

theorem survives_claims (d : Dict Mode) : (Codec.dict mode).Survives 1 d :=
  Codec.survives_dict fun e _ => survives_mode e.2

theorem survives_keepAlive (c : Client) (d : Option (Dict Mode)) :
    keepAlive.Survives 2 (c, d) := by
  refine survives_record₂ ((survives_name _ c).mono (by decide)) ?_ (by decide)
  cases d with
  | none => exact FieldSpec.survives_of_omitted rfl rfl
  | some d =>
    exact FieldSpec.survives_of_written rfl
      ((survives_claims d).some (shuns_bracketed rfl (by decide) _ _))

theorem survives_lockCall (c : Client) (p : Path) : lockCall.Survives 1 (c, p) :=
  survives_record₂ (survives_name _ c) (survives_name _ p) (by decide)

theorem survives_acquireLock (c : Client) (p : Path) (m : Mode) :
    acquireLock.Survives 1 (c, p, m) :=
  survives_record₃ (survives_name _ c) (survives_name _ p)
    (survives_required _ (survives_mode m)) (by decide)

theorem survives_join (n : Node) (a : Addr) : join.Survives 1 (n, a) :=
  survives_record₂ (survives_name _ n) (survives_name _ a) (by decide)

/-! ## Responses -/

theorem survives_master (a : Addr) : master.Survives 1 a :=
  survives_record₁ (survives_name _ a)

theorem survives_count {n : Nat} (h : n < Text.wordBound) : count.Survives 0 n :=
  Codec.survives_nat h wordBound_le_bound

theorem survives_span {n : Nat} (h : n / Clock.second < Text.wordBound) : span.Survives 1 n := by
  have hr : n % Clock.second < Text.halfWordBound :=
    Nat.lt_trans (Nat.mod_lt n (by decide)) (by decide)
  refine Codec.Survives.refine (Fields.survives_codec true
    (And.intro (survives_required _ (survives_count h))
      ⟨survives_required _ (Codec.survives_nat hr (by decide +kernel)), trivial⟩)
    (by decide)) ?_
  simp [Nat.div_add_mod', h]

theorem survives_kept {k : KeepAlive} (h : k.lease / Clock.second < Text.wordBound) :
    kept.Survives 2 k :=
  Codec.Survives.map (survives_record₂ (survives_required _ (survives_span h))
    (FieldSpec.survives_of_written rfl ((Codec.survives_bool k.expired).mono (by decide)))
    (by decide)) rfl

theorem survives_acquired (b : Bool) : acquired.Survives 1 b :=
  survives_record₁ (survives_required _ (Codec.survives_bool b))

theorem survives_done : done.Survives 1 () :=
  Fields.survives_codec false trivial (by decide)

theorem survives_stamp {t : Stamp} (h : t.Valid) (hy : 0 ≤ t.year ∧ t.year ≤ 9999) :
    stamp.Survives 0 t := by
  refine (Codec.survives_text _).refine ?_
  rw [String.toList_ofList, Stamp.read?_write h hy]

/-- The numbers of a status document have 64 bits, and its moment exists, in a year of four
digits. -/
structure StatusDocument.Fits (s : StatusDocument) : Prop where
  sessions : s.status.sessions < Text.wordBound
  locks : s.status.locks < Text.wordBound
  uptime : s.uptime < Text.wordBound
  valid : s.startedAt.Valid
  year : 0 ≤ s.startedAt.year ∧ s.startedAt.year ≤ 9999

theorem survives_statusDocument {s : StatusDocument} (h : s.Fits) :
    statusDocument.Survives 1 s := by
  refine Codec.Survives.map (Fields.survives_codec false ?_ (by decide)) rfl
  exact And.intro (survives_name _ _) ⟨survives_name _ _,
    survives_required _ (Codec.survives_bool _), survives_leader _ _,
    survives_required _ (survives_count h.sessions),
    survives_required _ (survives_count h.locks),
    survives_required _ (survives_stamp h.valid h.year),
    survives_required _ (survives_count h.uptime), trivial⟩

/-! ## All that goes over the wire -/

/-- The types of response. -/
inductive ResponseKind where
  | master
  | kept
  | done
  | acquired
  | status
  deriving DecidableEq, Repr

namespace ResponseKind

def Value : ResponseKind → Type
  | master => Addr
  | kept => KeepAlive
  | done => Unit
  | acquired => Bool
  | status => StatusDocument

def codec : (k : ResponseKind) → Codec k.Value
  | master => Wire.master
  | kept => Wire.kept
  | done => Wire.done
  | acquired => Wire.acquired
  | status => statusDocument

/-- A lease may be as long as its seconds can be counted in 64 bits. -/
def Fits : (k : ResponseKind) → k.Value → Prop
  | kept, k => k.lease / Clock.second < Text.wordBound
  | status, s => s.Fits
  | master, _ | done, _ | acquired, _ => True

theorem survives {k : ResponseKind} {a : k.Value} (h : k.Fits a) : k.codec.Survives 3 a := by
  cases k with
  | master => exact (survives_master a).mono (by decide)
  | kept => exact (survives_kept h).mono (by decide)
  | done => exact survives_done.mono (by decide)
  | acquired => exact (survives_acquired a).mono (by decide)
  | status => exact (survives_statusDocument h).mono (by decide)

end ResponseKind

/-- The types of what goes over the wire. -/
inductive Kind where
  | initSession
  | keepAlive
  /-- Opens, deletes or releases a lock. -/
  | lockCall
  | acquireLock
  | join
  | response (k : ResponseKind)
  | reply (k : ResponseKind)
  | fault
  | lockError
  | mode
  | command
  deriving DecidableEq, Repr

namespace Kind

def Value : Kind → Type
  | initSession => Client
  | keepAlive => Client × Option (Dict Mode)
  | lockCall => Client × Path
  | acquireLock => Client × Path × Mode
  | join => Node × Addr
  | response k => k.Value
  | reply k => Except Fault k.Value
  | fault => Fault
  | lockError => LockError
  | mode => Mode
  | command => Command

def codec : (k : Kind) → Codec k.Value
  | initSession => Wire.initSession
  | keepAlive => Wire.keepAlive
  | lockCall => Wire.lockCall
  | acquireLock => Wire.acquireLock
  | join => Wire.join
  | response k => k.codec
  | reply k => Wire.reply k.codec
  | fault => Wire.fault
  | lockError => Wire.lockError
  | mode => Wire.mode
  | command => Wire.command

/-- Only a response can be too large. -/
def Fits : (k : Kind) → k.Value → Prop
  | response k, a => k.Fits a
  | reply k, r => ∀ a, r = .ok a → k.Fits a
  | _, _ => True

theorem survives {k : Kind} {a : k.Value} (h : k.Fits a) : k.codec.Survives 4 a := by
  cases k with
  | initSession => exact (survives_initSession a).mono (by decide)
  | keepAlive => exact (survives_keepAlive a.1 a.2).mono (by decide)
  | lockCall => exact (survives_lockCall a.1 a.2).mono (by decide)
  | acquireLock => exact (survives_acquireLock a.1 a.2.1 a.2.2).mono (by decide)
  | join => exact (survives_join a.1 a.2).mono (by decide)
  | response k => exact (ResponseKind.survives h).mono (by decide)
  | reply k => exact survives_reply (Nat.le_refl _) a fun b hb => ResponseKind.survives (h b hb)
  | fault => exact (survives_fault a).mono (by decide)
  | lockError => exact (survives_lockError a).mono (by decide)
  | mode => exact (survives_mode a).mono (by decide)
  | command => exact (survives_command a).mono (by decide)

theorem readAll_toText {k : Kind} {a : k.Value} (h : k.Fits a) :
    k.codec.readAll (k.codec.toText a) = .ok a :=
  (survives h).readAll (by decide)

/-- Two values of a kind have two texts. -/
theorem eq_of_toText_eq {k : Kind} {a b : k.Value} (ha : k.Fits a) (hb : k.Fits b)
    (h : k.codec.toText a = k.codec.toText b) : a = b := by
  have hr := readAll_toText ha
  rw [h, readAll_toText hb] at hr
  exact (Except.ok.inj hr).symm

end Kind

/-- Every value is read back from the text that is written for it, and no keep-alive without
claims has the text of one with claims, be it that they are none. -/
theorem values_survive_their_text :
    (∀ (k : Kind) (a : k.Value), k.Fits a → k.codec.readAll (k.codec.toText a) = .ok a) ∧
      ∀ (c c' : Client) (d : Dict Mode),
        keepAlive.toText (c, none) ≠ keepAlive.toText (c', some d) := by
  refine ⟨fun k a h => Kind.readAll_toText h, fun c c' d h => ?_⟩
  have he : (c, none) = (c', some d) := Kind.eq_of_toText_eq (k := .keepAlive) trivial trivial h
  cases he

/-- The moment in the status of a server that was started on a leap day. -/
def leapDay : StatusDocument :=
  ⟨⟨"n1", "10.0.0.1:7000", true, some "10.0.0.1:7000", 2, 3⟩,
    ⟨2024, 2, 29, 12, 30, 59, 250000000⟩, 7⟩

theorem values_survive_their_text_of_leapDay :
    leapDay.Fits ∧ (reply statusDocument).readAll ((reply statusDocument).toText (.ok leapDay)) =
      .ok (.ok leapDay) := by
  have h : leapDay.Fits := ⟨by decide, by decide, by decide, by decide, by decide⟩
  refine ⟨h, values_survive_their_text.1 (.reply .status) (.ok leapDay) fun a ha => ?_⟩
  cases ha
  exact h

end LockCell.Wire
