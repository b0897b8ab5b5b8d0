import LockCell.Error
import LockCell.Json.Record
import LockCell.Json.Union
import LockCell.Log.Command

/-
  LockCell.Wire.Errors — the JSON texts of modes, refusals, faults and commands.

  A mode is its name in capitals. A refusal, a fault or a command is an object with one
  entry: its kind, and a record of what it says.
-/

namespace LockCell.Wire

open Json

/-- A record of one field. -/
def record₁ {α : Type} (f : FieldSpec α) : Codec α :=
  ((Fields.cons f .nil).codec false).map (fun a => (a, ())) (·.1)

/-- A record of two fields. -/
def record₂ {α β : Type} (f : FieldSpec α) (g : FieldSpec β) : Codec (α × β) :=
  ((Fields.cons f (.cons g .nil)).codec false).map (fun (a, b) => (a, b, ()))
    fun (a, b, _) => (a, b)

/-- A record of three fields. -/
def record₃ {α β γ : Type} (f : FieldSpec α) (g : FieldSpec β) (h : FieldSpec γ) :
    Codec (α × β × γ) :=
  ((Fields.cons f (.cons g (.cons h .nil))).codec false).map (fun (a, b, c) => (a, b, c, ()))
    fun (a, b, c, _) => (a, b, c)

def mode : Codec Mode where
  write m := writeString m.name
  read := Variant.read (Mode.all.map fun m => .unit m.name m)

def pathRecord : Codec Path := record₁ (.required "path" .text)

def clientRecord : Codec Client := record₁ (.required "client" .text)

def ownerRecord : Codec (Client × Path) :=
  record₂ (.required "client" .text) (.required "path" .text)

def modeRecord : Codec Mode := record₁ (.required "mode" mode)

def invariantRecord : Codec (Path × String) :=
  record₂ (.required "path" .text) (.required "detail" .text)

def lockError : Codec LockError where
  write
    | .notOpened p => Variant.tagged "NotOpened" (pathRecord.write p)
    | .alreadyOwned c p => Variant.tagged "AlreadyOwned" (ownerRecord.write (c, p))
    | .notOwned c p => Variant.tagged "NotOwned" (ownerRecord.write (c, p))
    | .notExclusive c p => Variant.tagged "NotExclusive" (ownerRecord.write (c, p))
    | .invalidMode m => Variant.tagged "InvalidMode" (modeRecord.write m)
    | .invariant p d => Variant.tagged "Invariant" (invariantRecord.write (p, d))
  read := Variant.read
    [.holding "NotOpened" pathRecord .notOpened,
     .holding "AlreadyOwned" ownerRecord fun (c, p) => .alreadyOwned c p,
     .holding "NotOwned" ownerRecord fun (c, p) => .notOwned c p,
     .holding "NotExclusive" ownerRecord fun (c, p) => .notExclusive c p,
     .holding "InvalidMode" modeRecord .invalidMode,
     .holding "Invariant" invariantRecord fun (p, d) => .invariant p d]

def leaderRecord : Codec (Option Addr) := record₁ (.nullable "leader" .text)

def textRecord : Codec String := record₁ (.required "message" .text)

def fault : Codec Fault where
  write
    | .notLeader l => Variant.tagged "NotLeader" (leaderRecord.write l)
    | .lock e => Variant.tagged "Lock" (lockError.write e)
    | .sessionExists c => Variant.tagged "SessionExists" (clientRecord.write c)
    | .sessionNotFound c => Variant.tagged "SessionNotFound" (clientRecord.write c)
    | .sessionExpired c => Variant.tagged "SessionExpired" (clientRecord.write c)
    | .internal t => Variant.tagged "Internal" (textRecord.write t)
  read := Variant.read
    [.holding "NotLeader" leaderRecord .notLeader,
     .holding "Lock" lockError .lock,
     .holding "SessionExists" clientRecord .sessionExists,
     .holding "SessionNotFound" clientRecord .sessionNotFound,
     .holding "SessionExpired" clientRecord .sessionExpired,
     .holding "Internal" textRecord .internal]

/-- Bytes as a list of numbers. -/
def bytes : Codec Bytes :=
  ((Codec.nat 256).map UInt8.toNat UInt8.ofNat).list

def setRecord : Codec (String × Bytes) :=
  record₂ (.required "key" .text) (.required "value" bytes)

def keyRecord : Codec String := record₁ (.required "key" .text)

def command : Codec Command where
  write
    | .set k v => Variant.tagged "Set" (setRecord.write (k, v))
    | .delete k => Variant.tagged "Delete" (keyRecord.write k)
  read := Variant.read
    [.holding "Set" setRecord fun (k, v) => .set k v, .holding "Delete" keyRecord .delete]

/-- What came of a request: the response, or the fault. -/
def reply {α : Type} (c : Codec α) : Codec (Except Fault α) where
  write
    | .ok a => Variant.tagged "Ok" (c.write a)
    | .error f => Variant.tagged "Err" (fault.write f)
  read := Variant.read [.holding "Ok" c .ok, .holding "Err" fault .error]

end LockCell.Wire
