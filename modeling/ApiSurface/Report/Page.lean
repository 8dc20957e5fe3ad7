import ApiSurface.Change

/-! Reports as pages. A page holds a title, the two versions, the count of the changes and a line
for each of them. Texts from outside are escaped where they are put in. -/
namespace ApiSurface.Report

/-- What a page shows. The lines are markup already. -/
structure Page where
  title : String
  versions : Option (String × String)
  summary : Change.Summary
  lines : List String
  deriving Repr

namespace Page

def ofChanges (title : String) (versions : Option (String × String)) (cs : List Change) : Page :=
  ⟨title, versions, .ofList cs, cs.map Change.markup⟩

/-- The looks of all pages. -/
def style : String :=
  "    <style>\n"
    ++ "        body \x7b font-family: system-ui, sans-serif; margin: 2rem;"
    ++ " line-height: 1.5; \x7d\n"
    ++ "        .summary \x7b color: #555; margin-bottom: 1.5rem; \x7d\n"
    ++ "        .change \x7b font-family: ui-monospace, monospace; margin: 0.2rem 0; \x7d\n"
    ++ "        .chip \x7b display: inline-block; min-width: 5.5rem; padding: 0 0.4rem;"
    ++ " border-radius: 0.3rem;\n"
    ++ "                font-size: 0.75rem; font-weight: 600; text-align: center;"
    ++ " color: #fff; \x7d\n"
    ++ "        .chip-added \x7b background: #2e7d32; \x7d\n"
    ++ "        .chip-removed \x7b background: #c62828; \x7d\n"
    ++ "        .chip-changed \x7b background: #ef6c00; \x7d\n"
    ++ "    </style>\n"

/-- The paragraph on the versions, unless the old one has no name. -/
def versionsParagraph : Option (String × String) → String
  | some (old, new) =>
    if old = "" then ""
    else "    <p class=\"versions\">" ++ Text.escapeAttribute old ++ " &rarr; "
      ++ Text.escapeAttribute new ++ "</p>\n"
  | none => ""

/-- The lines of the changes, or a word that there are none. -/
def body : List String → String
  | [] => "    <p>No changes.</p>\n"
  | lines => String.join (lines.map fun line => "    " ++ line ++ "\n")

/-- The text of a page. -/
def render (p : Page) : String :=
  let title := Text.escapeAttribute p.title
  "<!DOCTYPE html>\n<html lang=\"en\">\n<head>\n    <meta charset=\"utf-8\">\n    <title>"
    ++ title ++ "</title>\n" ++ style ++ "</head>\n<body>\n    <h1>" ++ title ++ "</h1>\n"
    ++ versionsParagraph p.versions
    ++ "    <p class=\"summary\">" ++ p.summary.display ++ "</p>\n"
    ++ body p.lines ++ "</body>\n</html>\n"

end Page
end ApiSurface.Report
