/-! The formats a report is written in. -/
namespace ApiSurface.Report

inductive Format
  | text
  | json
  | html
  deriving Repr, DecidableEq, Inhabited

namespace Format

def all : List Format := [text, json, html]

/-- The word that names a format in options and settings. -/
def name : Format → String
  | text => "text"
  | json => "json"
  | html => "html"

def ofName? (s : String) : Option Format := all.find? (·.name = s)

@[simp] theorem ofName?_name (f : Format) : ofName? f.name = some f := by cases f <;> rfl

/-- The last part of the names of report files. -/
def extension : Format → String
  | text => "txt"
  | json => "json"
  | html => "html"

/-- What ends the stem of every report file. -/
def stemSuffix : String := ".changes"

/-- The name of the report on one version. -/
def fileName (version : String) (f : Format) : String :=
  version ++ stemSuffix ++ "." ++ f.extension

/-- What is said of a word that names no format. -/
def unknownMessage (word : String) : String :=
  "unknown report format '" ++ word ++ "', expected text, json or html"

end Format
end ApiSurface.Report
