import ApiSurface.CommandLine.Options
import ApiSurface.Fault
import ApiSurface.Files

/-! Why a run fails. -/
namespace ApiSurface.CommandLine

inductive Failure
  | unknownCommand (name : String)
  | settings
  | options (fault : OptionFault)
  | extracting (input : Path) (fault : Fault)
  | reading (path : Path) (fault : FileFault)
  | decoding (path : Path) (fault : DocumentFault)
  | listing (path : Path) (fault : FileFault)
  | creating (path : Path) (fault : FileFault)
  /-- The directory of an output file cannot be made. -/
  | preparing (fault : FileFault)
  | writing (path : Path) (fault : FileFault)
  deriving Repr

namespace Failure

/-- What a run says first when it fails. -/
def message : Failure → String
  | unknownCommand name => "Unknown command: " ++ name
  | settings => "loading " ++ Settings.fileName
  | options fault => fault.message
  | extracting input _ => "extracting " ++ input
  | reading path _ => "reading " ++ path
  | decoding path _ => "decoding " ++ path
  | listing path _ => "reading " ++ path
  | creating path _ => "creating " ++ path
  | preparing fault => fault.message
  | writing path _ => "writing " ++ path

/-- The faults behind a failure, the nearest first. -/
def causes : Failure → List String
  | unknownCommand _ | settings | options _ | decoding _ _ | preparing _ => []
  | extracting _ (.io m) => [(Fault.io m).display, m]
  | extracting _ (.unsupported c l) => [(Fault.unsupported c l).display]
  | extracting _ _ => []
  | listing path fault =>
    ["IO error for operation on " ++ path ++ ": " ++ fault.message, fault.message]
  | reading _ fault | creating _ fault | writing _ fault => [fault.message]

/-- Causes under their headline; only more than one are numbered. -/
def causeLines : List String → List String
  | [] => []
  | [c] => ["", "Caused by:", "    " ++ c]
  | cs => ["", "Caused by:"] ++ cs.mapIdx fun i c => "    " ++ toString i ++ ": " ++ c

/-- All that is told about a failure. -/
def report (f : Failure) : List String := ("Error: " ++ f.message) :: causeLines f.causes

/-- A failure in one line. -/
def summary (f : Failure) : String := ": ".intercalate (f.message :: f.causes)

end Failure
end ApiSurface.CommandLine
