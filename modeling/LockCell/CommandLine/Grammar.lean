import LockCell.Names
import LockCell.Text.Digits

/-
  LockCell.CommandLine.Grammar — reading a command line: options first, then perhaps a
  command with options of its own.

  Words are read from left to right and the first error wins. An option's value is the next
  word, or stands after an equals sign; a word that begins with a dash is a value only in
  the second way, or if it is a lone dash. A value is looked at no sooner than the next
  option comes, so an unknown word hides what is wrong with the value before it, and the
  errors of a command hide what is wrong with the last option before it. Variables of the
  environment stand in for options that are not given.
-/

namespace LockCell.CommandLine

/-- Why a command line is not carried out. -/
inductive UsageError where
  | unknownArgument
  | invalidValue
  | argumentConflict
  | tooManyValues
  | valueValidation
  | invalidSubcommand
  | missingSubcommand
  | displayHelp
  | displayVersion
  | nothingGiven
  deriving DecidableEq, Repr

def UsageError.name : UsageError → String
  | unknownArgument => "UnknownArgument"
  | invalidValue => "InvalidValue"
  | argumentConflict => "ArgumentConflict"
  | tooManyValues => "TooManyValues"
  | valueValidation => "ValueValidation"
  | invalidSubcommand => "InvalidSubcommand"
  | missingSubcommand => "MissingSubcommand"
  | displayHelp => "DisplayHelp"
  | displayVersion => "DisplayVersion"
  | nothingGiven => "DisplayHelpOnMissingArgumentOrSubcommand"

/-- What an option takes. -/
inductive Takes where
  /-- Nothing; its variable must be `true` or `false`. -/
  | nothing
  | text
  /-- A text that is not empty. -/
  | path
  /-- A number of 64 bits. -/
  | number
  /-- Texts with commas between them; the option may come again. -/
  | texts
  deriving DecidableEq, Repr

structure Opt where
  name : String
  takes : Takes
  fromEnv : Option String := none

/-- The options of a program or of a command. -/
structure Grammar where
  options : List Opt
  /-- It tells its version. -/
  versioned : Bool := false
  commands : List String := []

/-- The values of the options that have been given. -/
abbrev Given := Dict (List String)

/-- The number of a text of digits, a plus sign before them allowed. -/
def number? (s : String) : Option Nat :=
  let ds := match s.toList with
    | '+' :: ds => ds
    | ds => ds
  if ds.isEmpty || !ds.all Char.isDigit then none
  else
    let n := Text.ofDigits ds
    if n < Text.wordBound then some n else none

namespace Opt

/-- Whether a value will do. -/
def check (o : Opt) (v : String) : Except UsageError Unit :=
  match o.takes with
  | .text | .texts => .ok ()
  | .path => if v.isEmpty then .error .invalidValue else .ok ()
  | .number => if (number? v).isSome then .ok () else .error .valueValidation
  | .nothing => if v = "true" ∨ v = "false" then .ok () else .error .invalidValue

/-- The option is given with this value. -/
def give (o : Opt) (g : Given) (v : String) : Except UsageError Given :=
  match o.takes with
  | .texts => .ok (g.insert o.name ((g[o.name]?).getD [] ++ v.splitOn ","))
  | _ =>
    if o.name ∈ g then .error .argumentConflict
    else do
      o.check v
      return g.insert o.name [v]

end Opt

/-- What has been read: the options given, and the last one if it has not been looked at,
with its value if that has come. -/
structure Reading where
  given : Given := ∅
  last : Option (Opt × Option String) := none

namespace Reading

/-- Looks at the last option. -/
def settle (r : Reading) : Except UsageError Reading :=
  match r.last with
  | none => .ok r
  | some (_, none) => .error .invalidValue
  | some (o, some v) => do return { given := ← o.give r.given v }

/-- The last option waits for its value. -/
def waiting? (r : Reading) : Option Opt :=
  match r.last with
  | some (o, none) => some o
  | _ => none

/-- A flag is given. -/
def flag (r : Reading) (o : Opt) : Except UsageError Reading := do
  let r ← r.settle
  return { given := ← o.give r.given "true" }

/-- An option comes, with a value after an equals sign or without. -/
def option (r : Reading) (o : Opt) (value : Option String) : Except UsageError Reading := do
  let r ← r.settle
  match value with
  | none => return { r with last := some (o, none) }
  | some v => return { given := ← o.give r.given v }

end Reading

/-- Where reading has stopped: at the end, or at a command. -/
abbrev Stop := Reading × Option (String × List String)

namespace Grammar

/-- A word that has no business where it stands. -/
def stray (g : Grammar) : UsageError :=
  if g.commands.isEmpty then .unknownArgument else .invalidSubcommand

/-- Shows help or the version, if the option before is in order. -/
def display {α : Type} (r : Reading) (e : UsageError) : Except UsageError α := do
  let _ ← r.settle
  throw e

/-- A word that begins with two dashes. -/
def long (g : Grammar) (r : Reading) (word : List Char) : Except UsageError Reading :=
  let name := String.ofList (word.takeWhile (· != '='))
  let value := match word.dropWhile (· != '=') with
    | _ :: v => some (String.ofList v)
    | [] => none
  let bare (act : Except UsageError Reading) :=
    if value.isSome then .error .tooManyValues else act
  match g.options.find? (·.name == name) with
  | some o => if o.takes = .nothing then bare (r.flag o) else r.option o value
  | none =>
    if name = "help" then bare (display r .displayHelp)
    else if name = "version" ∧ g.versioned then bare (display r .displayVersion)
    else .error .unknownArgument

/-- A word that begins with one dash and goes on. -/
def short (g : Grammar) (r : Reading) : Char → Except UsageError Reading
  | 'h' => display r .displayHelp
  | 'V' => if g.versioned then display r .displayVersion else .error .unknownArgument
  | _ => .error .unknownArgument

/-- After two dashes no word is in its place. -/
def trailing (g : Grammar) (r : Reading) : List String → Except UsageError Stop
  | [] => .ok (r, none)
  | w :: _ => .error (if g.commands.contains w then .unknownArgument else g.stray)

/-- `help`, and what it is asked for. -/
def help (g : Grammar) : List String → UsageError
  | [] => .displayHelp
  | [w] => if g.commands.contains w then .displayHelp else .invalidSubcommand
  | _ => .invalidSubcommand

/-- Reads words up to a command or the end. -/
def read (g : Grammar) : List String → Reading → Except UsageError Stop
  | [], r => .ok (r, none)
  | w :: rest, r =>
    if r.waiting?.isNone && g.commands.contains w then
      if w = "help" then .error (g.help rest) else .ok (r, some (w, rest))
    else
      match w.toList, r.waiting? with
      | ['-', '-'], _ => g.trailing r rest
      | '-' :: '-' :: cs, _ => do g.read rest (← g.long r cs)
      | '-' :: c :: _, _ => do g.read rest (← g.short r c)
      | _, some o => g.read rest { r with last := some (o, some w) }
      | _, none => .error g.stray

/-- Adds the options whose variables are set. -/
def addVariables (g : Grammar) (env : Dict String) (given : Given) : Except UsageError Given :=
  g.options.foldlM (fun given o =>
    match o.fromEnv.bind (env[·]?) with
    | some v => if o.name ∈ given then .ok given else o.give given v
    | none => .ok given) given

/-- A whole command line that has no command. -/
def readAll (g : Grammar) (args : List String) (env : Dict String) : Except UsageError Given := do
  let (r, _) ← g.read args {}
  g.addVariables env (← r.settle).given

end Grammar

namespace Given

def text? (g : Given) (name : String) : Option String := (g[name]?).bind (·.head?)

def text (g : Given) (name default : String) : String := (g.text? name).getD default

def flag (g : Given) (name : String) : Bool := g.text? name == some "true"

def number (g : Given) (name : String) (default : Nat) : Nat :=
  ((g.text? name).bind number?).getD default

end Given

end LockCell.CommandLine
