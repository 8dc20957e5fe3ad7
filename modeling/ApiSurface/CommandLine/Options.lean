import ApiSurface.Settings

/-! Options of the commands. Arguments are read from the first to the last, and what they say goes
over the settings. -/
namespace ApiSurface.CommandLine

/-- The commands that take options. -/
inductive Command
  | extract
  | diff
  | changelog
  deriving Repr, DecidableEq

/-- How a command is called. -/
def Command.synopsis : Command → String
  | extract => "dts-etch extract <file.d.ts> [-o out.json]"
  | diff => "dts-etch diff <old.json> <new.json> [-f text|json|html]"
  | changelog => "dts-etch changelog <dir> [-o out-dir]"

inductive OptionFault
  | missingFormat
  | unknownFormat (word : String)
  | missingOutput
  | unknownFlag (argument : String)
  | unknownArgument (argument : String)
  /-- Too few paths, or too many. -/
  | wrongPaths (command : Command)
  deriving Repr, DecidableEq

def OptionFault.message : OptionFault → String
  | missingFormat => "--format requires a value (text, json, or html)"
  | unknownFormat word => "Configuration error: " ++ Report.Format.unknownMessage word
  | missingOutput => "--output requires a value"
  | unknownFlag argument => "Unknown flag: " ++ argument
  | unknownArgument argument => "Unknown argument: " ++ argument
  | wrongPaths command => "Usage: " ++ command.synopsis

def isFormatFlag (argument : String) : Bool := argument = "-f" || argument = "--format"

def isOutputFlag (argument : String) : Bool := argument = "-o" || argument = "--output"

/-- Arguments that start with a dash are never paths. -/
def isPath (argument : String) : Bool := argument.toList.head? ≠ some '-'

/-- Read a report flag at the head of the arguments: the settings it leads to and how many arguments
it takes. Anything else takes none. -/
def reportFlag (s : ReportSettings) : List String → Except OptionFault (ReportSettings × Nat)
  | [] => .ok (s, 0)
  | argument :: rest =>
    if isFormatFlag argument then
      match rest with
      | [] => .error .missingFormat
      | word :: _ =>
        match Report.Format.ofName? word with
        | some f => .ok ({ s with format := f }, 2)
        | none => .error (.unknownFormat word)
    else if argument = "--no-color" then .ok ({ s with color := false }, 1)
    else if argument = "--dedupe" then .ok ({ s with dedupe := true }, 1)
    else .ok (s, 0)

structure ExtractOptions where
  input : Path
  output : Option Path
  deriving Repr, DecidableEq

def readExtract (input output : Option Path) : List String → Except OptionFault ExtractOptions
  | [] =>
    match input with
    | some p => .ok ⟨p, output⟩
    | none => .error (.wrongPaths .extract)
  | argument :: rest =>
    if isOutputFlag argument then
      match rest with
      | [] => .error .missingOutput
      | p :: rest => readExtract input (some p) rest
    else if isPath argument && input.isNone then readExtract (some argument) output rest
    else .error (.unknownArgument argument)

structure DiffOptions where
  old : Path
  new : Path
  report : ReportSettings
  deriving Repr, DecidableEq

def readDiff (s : ReportSettings) (paths : List Path) :
    List String → Except OptionFault DiffOptions
  | [] =>
    match paths with
    | [old, new] => .ok ⟨old, new, s⟩
    | _ => .error (.wrongPaths .diff)
  | argument :: rest =>
    match reportFlag s (argument :: rest) with
    | .error fault => .error fault
    | .ok (s, 0) =>
      if isPath argument then readDiff s (paths ++ [argument]) rest
      else .error (.unknownFlag argument)
    | .ok (s, used + 1) => readDiff s paths (rest.drop used)
termination_by args => args.length
decreasing_by
  · simp only [List.length_cons]; omega
  · simp only [List.length_cons, List.length_drop]; omega

structure ChangelogOptions where
  input : Path
  output : Path
  report : ReportSettings
  deriving Repr, DecidableEq

def readChangelog (s : ReportSettings) (input : Option Path) (output : Path) :
    List String → Except OptionFault ChangelogOptions
  | [] =>
    match input with
    | some p => .ok ⟨p, output, s⟩
    | none => .error (.wrongPaths .changelog)
  | argument :: rest =>
    match reportFlag s (argument :: rest) with
    | .error fault => .error fault
    | .ok (s, used + 1) => readChangelog s input output (rest.drop used)
    | .ok (s, 0) =>
      if isOutputFlag argument then
        match rest with
        | [] => .error .missingOutput
        | p :: rest => readChangelog s input p rest
      else if isPath argument && input.isNone then readChangelog s (some argument) output rest
      else .error (.unknownArgument argument)
termination_by args => args.length
decreasing_by
  · simp only [List.length_cons, List.length_drop]; omega
  · simp only [List.length_cons]; omega
  · simp only [List.length_cons]; omega

def ExtractOptions.parse (args : List String) : Except OptionFault ExtractOptions :=
  readExtract none none args

def DiffOptions.parse (s : Settings) (args : List String) : Except OptionFault DiffOptions :=
  readDiff s.report [] args

def ChangelogOptions.parse (s : Settings) (args : List String) :
    Except OptionFault ChangelogOptions :=
  readChangelog s.report none s.directory args

end ApiSurface.CommandLine
