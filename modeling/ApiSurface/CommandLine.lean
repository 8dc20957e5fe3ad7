import ApiSurface.CommandLine.Changelog

/-! The program: it reads the settings of the directory it is run in and carries out one command. -/
namespace ApiSurface.CommandLine

/-- What a run shows, and why it fails if it does. -/
structure Outcome where
  output : String := ""
  /-- Lines beside the output. -/
  messages : List String := []
  failure : Option Failure := none
  deriving Repr

/-- The exit status of a run. -/
def Outcome.status (o : Outcome) : Nat := if o.failure.isSome then 1 else 0

/-- The name of the program with its version. -/
def versionLine : String := "dts-etch 0.1.0"

/-- How the program is called. -/
def usage : List String := [
  "dts-etch <extract|diff|changelog> [options]",
  "",
  "Commands:",
  "  extract <file.d.ts> [-o <out.json>]        Extract the API structure of a declaration file",
  "  diff <old.json> <new.json>                 Compare two stored structures",
  "  changelog <dir> [-o <out-dir>]             " ++
    "Compare every consecutive pair of <version>.json files",
  "",
  "Options for diff and changelog:",
  "  -f, --format <text|json|html>  Report format (default: text)",
  "  --no-color                     Disable colored terminal output",
  "  --dedupe                       Report each shared difference once instead of twice",
  "",
  "Environment:",
  "  DTS_ETCH_LOG  Log filter (default: info)"]

variable {m : Type → Type} [Monad m] [Files m]

/-- The settings of the working directory. Without a settings file all have their defaults. -/
def loadSettings : m (Except Failure Settings) := do
  if ← Files.isFile Settings.fileName then
    match ← Files.read Settings.fileName with
    | .ok text => return ((Settings.parse? text).map Except.ok).getD (.error .settings)
    | .error _ => return .error .settings
  else return .ok {}

/-- Options that were read, or the failure that they make. -/
def checked {α : Type} (result : Except OptionFault α) : ExceptT Failure m α :=
  ExceptT.mk (pure (result.mapError Failure.options))

/-- The outcome of a command that shows text. -/
def shown (run : ExceptT Failure m String) : m Outcome := do
  match ← run with
  | .ok text => return { output := text }
  | .error failure => return { failure := some failure }

/-- The outcome of a command that tells about single files. -/
def told (run : ExceptT Failure m (List Diagnostic)) : m Outcome := do
  match ← run with
  | .ok ds => return { messages := Diagnostic.lines ds }
  | .error failure => return { failure := some failure }

/-- Carry out a command. -/
def dispatch (s : Settings) (command : String) (args : List String) : m Outcome :=
  match command with
  | "extract" => shown do extract (← checked (ExtractOptions.parse args))
  | "diff" => shown do diff (← checked (DiffOptions.parse s args))
  | "changelog" => told do changelog (← checked (ChangelogOptions.parse s args))
  | "--version" | "-V" => return { output := versionLine ++ "\n" }
  | "help" | "--help" | "-h" => return { messages := usage }
  | other => return { messages := usage, failure := some (.unknownCommand other) }

/-- A run with some arguments. Without any it only tells how it is called. -/
def run : List String → m Outcome
  | [] => return { messages := usage }
  | command :: args => do
    match ← loadSettings with
    | .ok s => dispatch s command args
    | .error failure => return { failure := some failure }

end ApiSurface.CommandLine
