import ApiSurface.Toml
import ApiSurface.Toml.Scalar

/-! Reading TOML text. -/
namespace ApiSurface.Toml

namespace Reader

open Text (Scan)
open Text.Scan

/-- A number, a date or a time. -/
def numeric : Scan Toml := do
  match ← attempt dateTime with
  | some _ => pure .dateTime
  | none =>
    match ← attempt float with
    | some _ => pure .number
    | none => integer; pure .number

/-- A value that holds no other value. -/
def scalar (c : Char) : Scan Toml :=
  if c = '"' || c = '\'' then return .string (← string)
  else if c = '+' || c = '-' || c.isDigit then numeric
  else if c = 't' then do chars "true".toList; pure (.boolean true)
  else if c = 'f' then do chars "false".toList; pure (.boolean false)
  else if c = 'i' || c = 'n' then do float; pure .number
  else fail

/-- The items of an array and its closing bracket. A comma may follow the last item. -/
def items (item : Scan Toml) : Nat → Scan (List Toml)
  | 0 => fail
  | fuel + 1 => do
    skipLines
    if (← peek?) = some ']' then
      let _ ← next
      pure []
    else
      let v ← item
      skipLines
      match ← next with
      | ',' => return v :: (← items item fuel)
      | ']' => pure [v]
      | _ => fail

/-- A key with its value. -/
def pair (item : Scan Toml) : Scan (List String × Toml) := do
  let k ← key
  char '='
  skipBlank
  return (k, ← item)

/-- The pairs of an inline table and its closing brace, put into the entries read so far. -/
def inlineEntries (item : Scan Toml) : Nat → Entries → Scan Entries
  | 0, _ => fail
  | fuel + 1, es => do
    let (k, v) ← pair item
    match insert .inlineDotted v k es with
    | none => fail
    | some es =>
      skipBlank
      match ← next with
      | ',' => inlineEntries item fuel es
      | '\x7d' => pure es
      | _ => fail

/-- A value in which at most `room` arrays and inline tables nest. -/
def value (room : Nat) : Scan Toml := do
  match ← peek? with
  | none => fail
  | some c =>
    if c = '[' || c = '\x7b' then
      match room with
      | 0 => fail
      | room + 1 =>
        let _ ← next
        let fuel := (← get).length + 1
        if c = '[' then return .array (← items (value room) fuel)
        else
          skipBlank
          if (← peek?) = some '\x7d' then
            let _ ← next
            pure (.table .inline [])
          else return .table .inline (← inlineEntries (value room) fuel [])
    else scalar c

/-- The lines of a document below the header of a table, put into the entries read so far. -/
def lines : Nat → List String → Entries → Scan Entries
  | 0, _, _ => fail
  | fuel + 1, header, es => do
    skipLines
    match ← peek? with
    | none => pure es
    | some '[' =>
      let _ ← next
      let several := (← peek?) = some '['
      if several then let _ ← next
      let path ← key
      char ']'
      if several then char ']'
      lineEnd
      let change := if several then openItem else openTable
      match descend (change (path.getLast?.getD "")) path.dropLast es with
      | some es => lines fuel path es
      | none => fail
    | some _ =>
      let (k, v) ← pair (value (maxDepth - 1))
      lineEnd
      match descend (insert .dotted v k) header es with
      | some es => lines fuel header es
      | none => fail

end Reader

/-- The entries of a whole document. A byte order mark at its start does not count. -/
def parse? (text : String) : Option Entries :=
  let cs := match text.toList with
    | '\uFEFF' :: cs => cs
    | cs => cs
  (Reader.lines (cs.length + 1) [] []).run' cs

end ApiSurface.Toml
