import ApiSurface.Declaration.Document
import ApiSurface.Location

/-! What can go wrong, and how it is told. -/
namespace ApiSurface

inductive Fault
  | io (message : String)
  /-- A text is no declaration file. -/
  | grammar (message : String)
  /-- A construct that stands for no declaration. -/
  | unsupported (construct : String) (location : Location)
  /-- A text is no stored document. -/
  | document (fault : DocumentFault)
  | configuration (message : String)
  | path (message : String)
  | template (message : String)
  deriving Repr

namespace Fault

/-- The reason a stored document is refused for. -/
def documentMessage : DocumentFault → String
  | .text .malformed => "malformed text"
  | .text .truncated => "unexpected end of the text"
  | .shape => "no list of declarations"

def display : Fault → String
  | io m => "IO error: " ++ m
  | grammar m => "Syntax error: " ++ m
  | unsupported c l => "Unsupported " ++ c ++ " at " ++ l.display
  | document f => "Serialization error: " ++ documentMessage f
  | configuration m => "Configuration error: " ++ m
  | path m => "Invalid path: " ++ m
  | template m => "Template error: " ++ m

/-- The fault lies in the text of a declaration file. -/
def inSource : Fault → Bool
  | grammar _ | unsupported _ _ => true
  | _ => false

end Fault
end ApiSurface
