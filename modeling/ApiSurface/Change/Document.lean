import ApiSurface.Change
import ApiSurface.Declaration.Document

/-! The stored form of change records: JSON objects whose field `type` names the sort of change. -/
namespace ApiSurface.Change

def toJson : Change → Json
  | added g d n =>
    .object [("type", .string "added"), ("groupName", .string g), ("changeDetail", .string d),
      ("newValue", .string n)]
  | removed g d o =>
    .object [("type", .string "removed"), ("groupName", .string g), ("changeDetail", .string d),
      ("oldValue", .string o)]
  | changed g d o n =>
    .object [("type", .string "changed"), ("groupName", .string g), ("changeDetail", .string d),
      ("oldValue", .string o), ("newValue", .string n)]
  | separator => .object [("type", .string "separator")]

/-- A change from its JSON form. A detail that is absent is empty. -/
def ofJson? (v : Json) : Option Change := do
  let (tag, r) ← v.record?
  match tag with
  | .string "added" =>
    if r.fits 3 then
      return added (← r.text? "groupName" 0) (← r.defaultText? "changeDetail" 1)
        (← r.text? "newValue" 2)
    else none
  | .string "removed" =>
    if r.fits 3 then
      return removed (← r.text? "groupName" 0) (← r.defaultText? "changeDetail" 1)
        (← r.text? "oldValue" 2)
    else none
  | .string "changed" =>
    if r.fits 4 then
      return changed (← r.text? "groupName" 0) (← r.defaultText? "changeDetail" 1)
        (← r.text? "oldValue" 2) (← r.text? "newValue" 3)
    else none
  | .string "separator" => if r.fits 0 then some separator else none
  | _ => none

/-- The stored form of a list of changes. -/
def listToJson (cs : List Change) : Json := .array (cs.map toJson)

/-- A list of changes from its JSON form. -/
def listOfJson? : Json → Option (List Change)
  | .array items => items.mapM ofJson?
  | _ => none

/-- The changes in a JSON text. -/
def listOfText? (text : String) : Option (List Change) :=
  (Json.parse text).toOption.bind listOfJson?

end ApiSurface.Change
