import LockCell.Client.Program
import LockCell.CommandLine.Grammar

/-
  LockCell.CommandLine.Client — the command line of the client program: who it is, whom it
  asks, and one of five commands.
-/

namespace LockCell

structure ClientOptions where
  client : Client
  servers : List Addr
  command : ProgramCommand
  deriving DecidableEq, Repr

namespace ClientOptions

open CommandLine

def grammar : Grammar where
  options :=
    [⟨"client-id", .text, some "CHUBBY_CLIENT_ID"⟩, ⟨"servers", .texts, none⟩]
  versioned := true
  commands := ["hold", "acquire", "churn", "elect", "status", "help"]

def defaultPath : Path := "Lock/Lock1"

/-- The options of a command. -/
def commandGrammar : String → Grammar
  | "acquire" => ⟨[⟨"path", .text, none⟩], false, []⟩
  | "churn" => ⟨[⟨"locks", .number, none⟩], false, []⟩
  | "elect" => ⟨[⟨"path", .text, none⟩, ⟨"hold-secs", .number, none⟩], false, []⟩
  | _ => ⟨[], false, []⟩

/-- The command of that name with what was given to it. -/
def commandOf (name : String) (g : Given) : ProgramCommand :=
  match name with
  | "acquire" => .acquire (g.text "path" defaultPath)
  | "churn" => .churn (g.number "locks" 100)
  | "elect" => .elect (g.text "path" defaultPath) (g.number "hold-secs" 55)
  | "status" => .status
  | _ => .hold

def parse (args : List String) (env : Dict String) : Except UsageError ClientOptions := do
  let (r, stop) ← grammar.read args {}
  let command? ← match stop with
    | none => pure none
    | some (name, rest) => do
      let g ← (commandGrammar name).readAll rest ∅
      pure (some (commandOf name g))
  let g ← grammar.addVariables env (← r.settle).given
  match command? with
  | none => throw (if g.isEmpty then .nothingGiven else .missingSubcommand)
  | some command =>
    return {
      client := g.text "client-id" "simple_client_1"
      servers := (g["servers"]?).getD defaultServers
      command }

/-- What the program is started with; its lease is the default one. -/
def config (o : ClientOptions) : ClientConfig := { client := o.client, servers := o.servers }

end ClientOptions

end LockCell
