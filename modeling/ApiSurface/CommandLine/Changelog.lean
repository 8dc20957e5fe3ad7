import ApiSurface.CommandLine.Document
import ApiSurface.Diagnostic
import ApiSurface.Version

/-! The command `changelog`: one report for every version in a directory, on what is new since the
version before. -/
namespace ApiSurface.CommandLine

/-- A stored structure with the version its file is named for. -/
structure Release where
  version : String
  path : Path
  deriving Repr, DecidableEq

/-- The file is a stored structure, and not a report of an earlier run. -/
def isRelease (path : Path) : Bool :=
  path.extension? = some "json" && !Report.Format.stemSuffix.toList.isSuffixOf path.stem.toList

/-- The releases among the files of a directory, oldest first. -/
def releases (directory : Path) (names : List String) : List Release :=
  Version.sortOn Release.version
    (((names.map (Path.join directory ·)).filter isRelease).map fun p => ⟨p.stem, p⟩)

/-- How far a run has come: the last release that was read, and what there is to say so far. -/
structure Progress where
  previous : Option (String × Structure) := none
  diagnostics : List Diagnostic := []

def Progress.note (p : Progress) (failure : Failure) (file : Path) : Progress :=
  { p with diagnostics := p.diagnostics ++ [⟨.error, failure.summary, some file⟩] }

/-- The report on a release after another one. -/
def releaseReport (s : ReportSettings) (old : String × Structure) (new : String × Structure) :
    String :=
  Report.render (Comparison.compare s.dedupe old.2 new.2) s.format (changesTitle old.1 new.1)
    (some (old.1, new.1))

variable {m : Type → Type} [Monad m] [Files m]

/-- Read a release and write the report on it. A release that cannot be read is passed over. -/
def addRelease (o : ChangelogOptions) (p : Progress) (r : Release) : m Progress := do
  match ← load r.path with
  | .error failure => return p.note failure r.path
  | .ok structure' =>
    let next : Progress := { p with previous := some (r.version, structure') }
    match p.previous with
    | none => return next
    | some old =>
      let target := Path.join o.output (o.report.format.fileName r.version)
      match ← Files.write target (releaseReport o.report old (r.version, structure')) with
      | .ok () => return next
      | .error fault => return next.note (.writing target fault) target

/-- What is said when there is nothing to compare. -/
def countWarning (input : Path) (count : Nat) : List Diagnostic :=
  if count < 2 then
    [⟨.warning, "need at least two <version>.json files, found " ++ toString count, some input⟩]
  else []

/-- Write all reports and say what went wrong on the way. -/
def changelog (o : ChangelogOptions) : ExceptT Failure m (List Diagnostic) := do
  match ← (Files.list o.input : m _) with
  | .error fault => throw (.listing o.input fault)
  | .ok names =>
    let rs := releases o.input names
    match ← (Files.makeDirectories o.output : m _) with
    | .error fault => throw (.creating o.output fault)
    | .ok () =>
      let final : Progress ← (rs.foldlM (addRelease o) ⟨none, countWarning o.input rs.length⟩ : m _)
      return final.diagnostics

end ApiSurface.CommandLine
