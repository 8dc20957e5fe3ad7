import ApiSurface.Declaration
import ApiSurface.Json.Parser

/-! The stored form of a structure: a JSON array with an object for each declaration. The field
`type` names the kind and may stand anywhere in the object, unknown fields are ignored, and a list
that is absent is empty. -/
namespace ApiSurface

/-- Why a text is no stored document. -/
inductive DocumentFault
  /-- The text is no JSON. -/
  | text (fault : Json.Fault)
  /-- The JSON value has the wrong shape. -/
  | shape
  deriving Repr, DecidableEq

/-- The fields of a tagged record, or its values in a fixed order. -/
inductive Record
  | named (fields : List (String × Json))
  | positional (items : List Json)

namespace Record

/-- The field with a name and a place. It may stand in a record once at most. -/
def field? (r : Record) (name : String) (place : Nat) : Option (Option Json) :=
  match r with
  | named fields =>
    match Json.fieldsNamed name fields with
    | [] => some none
    | [v] => some (some v)
    | _ => none
  | positional items => some items[place]?

/-- A positional record has no more than `n` items. -/
def fits (r : Record) (n : Nat) : Bool :=
  match r with
  | named _ => true
  | positional items => items.length ≤ n

def string? : Json → Option String
  | .string s => some s
  | _ => none

/-- A field that must be there and hold a string. -/
def text? (r : Record) (name : String) (place : Nat) : Option String := do
  string? (← (← r.field? name place))

/-- A string field that may be absent or null. -/
def optionalText? (r : Record) (name : String) (place : Nat) : Option (Option String) := do
  match ← r.field? name place with
  | none => some none
  | some .null => some none
  | some v => some (some (← string? v))

/-- A string field that is empty when it is absent. -/
def defaultText? (r : Record) (name : String) (place : Nat) : Option String := do
  match ← r.field? name place with
  | none => some ""
  | some v => string? v

/-- A list of strings that is empty when it is absent. -/
def texts? (r : Record) (name : String) (place : Nat) : Option (List String) := do
  match ← r.field? name place with
  | none => some []
  | some (.array items) => items.mapM string?
  | some _ => none

/-- The values of a list that is empty when it is absent. -/
def items? (r : Record) (name : String) (place : Nat) : Option (List Json) := do
  match ← r.field? name place with
  | none => some []
  | some (.array items) => some items
  | some _ => none

end Record

/-- The tag of a record and the rest of it. -/
def Json.record? : Json → Option (Json × Record)
  | .object fields =>
    match Json.fieldsNamed "type" fields with
    | [tag] => some (tag, .named (fields.filter (·.1 ≠ "type")))
    | _ => none
  | .array (tag :: items) => some (tag, .positional items)
  | _ => none

namespace Declaration

def strings (vs : List String) : Json := .array (vs.map Json.string)

mutual

def toJson : Declaration → Json
  | enumeration n vs =>
    .object [("type", .string "enum"), ("name", .string n), ("values", strings vs)]
  | classType n ms s =>
    .object ([("type", .string "class"), ("name", .string n),
      ("properties", .array (listToJson ms))]
      ++ (s.map fun s => ("superClass", Json.string s)).toList)
  | interface n ms bs =>
    .object ([("type", .string "interface"), ("name", .string n),
      ("properties", .array (listToJson ms))]
      ++ (if bs.isEmpty then [] else [("extends", strings bs)]))
  | method n ps r =>
    .object ([("type", .string "method"), ("name", .string n),
      ("parameters", .array (listToJson ps))]
      ++ (r.map fun r => ("result", Json.string r)).toList)
  | property n t =>
    .object [("type", .string "property"), ("name", .string n), ("propertyType", .string t)]
  | parameter n t =>
    .object [("type", .string "parameter"), ("name", .string n), ("parameterType", .string t)]
  | typeAlias n t =>
    .object [("type", .string "type_alias"), ("name", .string n), ("propertyType", .string t)]

def listToJson : List Declaration → List Json
  | [] => []
  | d :: ds => toJson d :: listToJson ds

end

/-- The kind a tag stands for. Inside another record a kind may also be given by its number. -/
def kindOfTag? (nested : Bool) : Json → Option Kind
  | .string s => Kind.ofName? s
  | .number text =>
    if nested && text.all Char.isDigit then text.toNat?.bind (Kind.all[·]?) else none
  | _ => none

/-- The members or parameters of a declaration of some kind. -/
def nestedItems? (kind : Kind) (r : Record) : Option (List Json) :=
  match kind with
  | .classType | .interface => r.items? "properties" 1
  | .method => r.items? "parameters" 1
  | _ => some []

/-- A declaration from its kind, its own fields and its nested declarations. -/
def assemble? (kind : Kind) (r : Record) (nested : List Declaration) : Option Declaration := do
  let name ← r.text? "name" 0
  match kind with
  | .enumeration => if r.fits 2 then return enumeration name (← r.texts? "values" 1) else none
  | .classType =>
    if r.fits 3 then return classType name nested (← r.optionalText? "superClass" 2) else none
  | .interface => if r.fits 3 then return interface name nested (← r.texts? "extends" 2) else none
  | .method => if r.fits 3 then return method name nested (← r.optionalText? "result" 2) else none
  | .property => if r.fits 2 then return property name (← r.text? "propertyType" 1) else none
  | .parameter => if r.fits 2 then return parameter name (← r.text? "parameterType" 1) else none
  | .typeAlias => if r.fits 2 then return typeAlias name (← r.text? "propertyType" 1) else none

/-- A declaration from its JSON form; `fuel` bounds how deep declarations nest. -/
def ofJsonWithin? : Nat → Bool → Json → Option Declaration
  | 0, _, _ => none
  | fuel + 1, nested, v => do
    let (tag, record) ← v.record?
    let kind ← kindOfTag? nested tag
    let items ← nestedItems? kind record
    assemble? kind record (← items.mapM (ofJsonWithin? fuel true))

/-- A declaration from its JSON form. -/
def ofJson? (v : Json) : Option Declaration := ofJsonWithin? (v.depth + 1) false v

end Declaration

namespace Structure

def toJson (s : Structure) : Json := .array (Declaration.listToJson s)

/-- A structure from its JSON form. -/
def ofJson? : Json → Option Structure
  | .array items => items.mapM Declaration.ofJson?
  | _ => none

end Structure
end ApiSurface
