import LockCell.Cluster

/-
  LockCell.Log.Disk — the place where a cell keeps its log, and a cell of one server that
  is opened on it, closed and opened again.
-/

namespace LockCell

inductive Place where
  /-- Nothing; the directory can be made. -/
  | vacant
  | file (bytes : Bytes)
  /-- A directory of the log's name. -/
  | directory
  /-- A file of the directory's name. -/
  | blocked
  deriving DecidableEq

namespace Place

/-- Opens a cell on the place; a log that did not exist is made, empty. -/
def openCluster : Place → Except Error Cluster
  | vacant => Cluster.ofFile []
  | file bs => Cluster.ofFile bs
  | directory => .error (.serialization .unreadable)
  | blocked => .error (.io "File exists (os error 17)")

end Place

structure Disk where
  place : Place
  cluster : Option Cluster := none

namespace Disk

/-- The one server of the cell, and where it is reached. -/
def node : Node := "n"

def addr : Addr := "n:1"

def file? (d : Disk) : Option Bytes :=
  match d.place with
  | .file bs => some bs
  | _ => none

def logLength? (d : Disk) : Option Nat := d.cluster.map (·.entries.length)

def start (p : Place) : Except Error Unit × Disk :=
  match p.openCluster with
  | .error e => (.error e, ⟨p, none⟩)
  | .ok k =>
    let k := (k.register node addr).elect node
    (.ok (), ⟨.file (k.file.getD []), some k⟩)

inductive Step where
  | set (key : String) (value : Bytes)
  | delete (key : String)
  | get (key : String)
  | stepDown
  | elect (n : Node)
  /-- Bytes added to the file behind the cell's back. -/
  | append (bytes : Bytes)
  /-- Closes the cell and opens it again. -/
  | reopen

/-- What a step answers; `none` while no log is open. -/
abbrev Answer := Option (Except Error (Option Bytes))

def keep (d : Disk) (k : Cluster) : Disk :=
  ⟨match k.file with
    | some bs => .file bs
    | none => d.place, some k⟩

def run (d : Disk) (s : Step) : Answer × Disk :=
  match d.cluster with
  | none => (none, d)
  | some k =>
    let S := Cluster.storeOf node
    let write : Except Error Cluster → Answer × Disk
      | .error e => (some (.error e), d)
      | .ok k => (some (.ok none), d.keep k)
    match s with
    | .set key v => write (S.set k key v)
    | .delete key => write (S.delete k key)
    | .get key => (some (S.get k key), d)
    | .stepDown => write (.ok k.stepDown)
    | .elect n => write (.ok (k.elect n))
    | .append bs => write (.ok { k with file := k.file.map (· ++ bs) })
    | .reopen =>
      match start d.place with
      | (.error e, d) => (some (.error e), d)
      | (.ok (), d) => (some (.ok none), d)

end Disk

end LockCell
