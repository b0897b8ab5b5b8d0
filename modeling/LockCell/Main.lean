import LockCell.CommandLine.Client
import LockCell.CommandLine.Server

/-
  LockCell.Main — the command line: `server` or `client`, and the words for it. Says what
  would be started, or why nothing can be.
-/

namespace LockCell

/-- The variables of the environment that stand in for options. -/
def variableNames : List String :=
  ["CHUBBY_LISTEN", "CHUBBY_RAFT_DIR", "CHUBBY_RAFT_BIND", "CHUBBY_NODE_ID", "CHUBBY_JOIN",
   "CHUBBY_INMEM", "CHUBBY_CLIENT_ID"]

def environment : IO (Dict String) :=
  variableNames.foldlM (fun env name => do
    match ← IO.getEnv name with
    | some v => return env.insert name v
    | none => return env) ∅

def usage (e : CommandLine.UsageError) : IO UInt32 := do
  IO.eprintln e.name
  return if e = .displayHelp ∨ e = .displayVersion then 0 else 2

end LockCell

open LockCell in
def main (args : List String) : IO UInt32 := do
  let env ← environment
  match args with
  | "server" :: rest =>
    match ServerOptions.parse rest env with
    | .error e => usage e
    | .ok o =>
      IO.println ("serving clients at " ++ o.listen ++ ", log " ++
        if o.inMemory then "in memory" else "in " ++ o.logDir)
      return 0
  | "client" :: rest =>
    match ClientOptions.parse rest env with
    | .error e => usage e
    | .ok o =>
      IO.println (o.client ++ " asks " ++ ", ".intercalate o.servers)
      return 0
  | _ => usage .missingSubcommand
