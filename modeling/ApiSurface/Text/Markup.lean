/-! Text put into a page of markup. -/
namespace ApiSurface.Text

/-- A character between tags: only the three characters that could end the text are replaced. -/
def elementChar (c : Char) : List Char :=
  if c = '&' then "&amp;".toList
  else if c = '<' then "&lt;".toList
  else if c = '>' then "&gt;".toList
  else [c]

/-- Text between tags. -/
def escapeElement (s : String) : String := String.ofList (s.toList.flatMap elementChar)

/-- A character that may also stand inside a quoted or unquoted attribute. -/
def attributeChar (c : Char) : List Char :=
  if c = '"' then "&quot;".toList
  else if c = '\'' then "&#x27;".toList
  else if c = '\x60' then "&#x60;".toList
  else if c = '=' then "&#x3D;".toList
  else elementChar c

/-- Text that may stand anywhere in a page. -/
def escapeAttribute (s : String) : String := String.ofList (s.toList.flatMap attributeChar)

example : escapeElement "a<b & c" = "a&lt;b &amp; c" := by decide
example : escapeAttribute "x='1'" = "x&#x3D;&#x27;1&#x27;" := by decide

end ApiSurface.Text
