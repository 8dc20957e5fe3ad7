import ApiSurface.CommandLine.Failure
import ApiSurface.Comparison
import ApiSurface.Declaration.Decoding
import ApiSurface.Extraction
import ApiSurface.Report

/-! The commands on single documents: `extract` stores the structure of a declaration file, and
`diff` compares two stored structures. -/
namespace ApiSurface.CommandLine

variable {m : Type → Type} [Monad m] [Files m]

/-- The structure of a declaration file. -/
def extractFile (input : Path) : m (Except Failure Structure) := do
  match ← Files.read input with
  | .error fault =>
    return .error (.extracting input (.io ("Failed to read " ++ input ++ ": " ++ fault.message)))
  | .ok text => return (ApiSurface.extract text).mapError (.extracting input)

/-- Make the directory that an output file is to stand in. -/
def prepare (output : Path) : m (Except Failure Unit) := do
  match Path.parent? output with
  | none | some "" => return .ok ()
  | some directory => return (← Files.makeDirectories directory).mapError .preparing

/-- Store the structure of a declaration file, or show it. -/
def extract (o : ExtractOptions) : ExceptT Failure m String := do
  let structure' ← ExceptT.mk (extractFile o.input : m _)
  let text := Structure.encode structure' ++ "\n"
  match o.output with
  | none => return text
  | some output =>
    ExceptT.mk (prepare output : m _)
    ExceptT.mk (do return (← (Files.write output text : m _)).mapError (Failure.writing output))
    return ""

/-- The stored structure in a file. -/
def load (path : Path) : m (Except Failure Structure) := do
  match ← Files.read path with
  | .error fault => return .error (.reading path fault)
  | .ok text => return (Structure.decode text).mapError (.decoding path)

/-- The title of the page on two versions. -/
def changesTitle (old new : String) : String := "Changes from " ++ old ++ " to " ++ new

/-- The report on two files. Only text may be in color. -/
def diffReport (o : DiffOptions) (old new : Structure) : String :=
  let cs := Comparison.compare o.report.dedupe old new
  match o.report.format with
  | .text =>
    if o.report.color then Report.Terminal.colored cs
    else Report.Terminal.Writer.colorless.report cs
  | format =>
    let names := (o.old.stem, o.new.stem)
    Report.render cs format (changesTitle names.1 names.2) (some names)

/-- Compare the structures in two files. -/
def diff (o : DiffOptions) : ExceptT Failure m String := do
  let old ← ExceptT.mk (load o.old : m _)
  let new ← ExceptT.mk (load o.new : m _)
  return diffReport o old new

end ApiSurface.CommandLine
