import ApiSurface.Change.Document
import ApiSurface.Report.Format
import ApiSurface.Report.Page
import ApiSurface.Report.Terminal

/-! Reports as they are written to files. -/
namespace ApiSurface.Report

/-- A list of changes as a JSON document. -/
def document (cs : List Change) : String := (Change.listToJson cs).pretty ++ "\n"

/-- The report on a list of changes. Only a page shows the title and the versions. -/
def render (cs : List Change) (format : Format) (title : String)
    (versions : Option (String × String)) : String :=
  match format with
  | .text => Terminal.plain cs
  | .json => document cs
  | .html => (Page.ofChanges title versions cs).render

end ApiSurface.Report
