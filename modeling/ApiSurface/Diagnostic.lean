/-! Diagnostics: messages about single files of a run that goes on. -/
namespace ApiSurface

inductive Severity
  | error
  | warning
  deriving Repr, DecidableEq

namespace Severity

def name : Severity → String
  | error => "error"
  | warning => "warning"

/-- What switches the color of a severity on. -/
def color : Severity → String
  | error => "\x1b[31m"
  | warning => "\x1b[33m"

end Severity

structure Diagnostic where
  severity : Severity
  message : String
  file : Option String := none
  deriving Repr, DecidableEq

namespace Diagnostic

/-- The line of a diagnostic, without color. -/
def plain (d : Diagnostic) : String :=
  (match d.file with
    | some f => f ++ ": "
    | none => "")
  ++ d.severity.name ++ ": " ++ d.message

/-- The line of a diagnostic, in color. -/
def colored (d : Diagnostic) : String :=
  (match d.file with
    | some f => "\x1b[2m" ++ f ++ "\x1b[0m: "
    | none => "")
  ++ d.severity.color ++ d.severity.name ++ "\x1b[0m: " ++ d.message

/-- How many diagnostics have a severity. -/
def count (s : Severity) (ds : List Diagnostic) : Nat := ds.countP (·.severity = s)

def hasErrors (ds : List Diagnostic) : Bool := 0 < count .error ds

/-- All lines of a run: the diagnostics and, if there are any, their count below a blank line. -/
def lines (ds : List Diagnostic) : List String :=
  ds.map colored ++
    if ds.isEmpty then []
    else ["", toString (count .error ds) ++ " error(s), " ++ toString (count .warning ds)
      ++ " warning(s)"]

end Diagnostic
end ApiSurface
