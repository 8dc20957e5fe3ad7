/-! Declarations: what the surface of a package consists of. A structure is a list of them. -/
namespace ApiSurface

/-- The sort of a declaration. -/
inductive Kind
  | enumeration
  | classType
  | interface
  | method
  | property
  | parameter
  | typeAlias
  deriving Repr, DecidableEq

namespace Kind

def all : List Kind := [enumeration, classType, interface, method, property, parameter, typeAlias]

/-- The word for a kind in stored documents and reports. -/
def name : Kind → String
  | enumeration => "enum"
  | classType => "class"
  | interface => "interface"
  | method => "method"
  | property => "property"
  | parameter => "parameter"
  | typeAlias => "type_alias"

def ofName? (s : String) : Option Kind := all.find? (·.name = s)

theorem ofName?_name (k : Kind) : ofName? k.name = some k := by cases k <;> rfl

/-- Classes and interfaces hold members. -/
def isContainer : Kind → Bool
  | classType | interface => true
  | _ => false

/-- Leaves are compared by their display text. -/
def isLeaf : Kind → Bool
  | method | property | parameter | typeAlias => true
  | _ => false

end Kind

inductive Declaration
  | enumeration (name : String) (values : List String)
  | classType (name : String) (members : List Declaration) (superclass : Option String)
  | interface (name : String) (members : List Declaration) (bases : List String)
  | method (name : String) (parameters : List Declaration) (result : Option String)
  | property (name type : String)
  | parameter (name type : String)
  | typeAlias (name type : String)
  deriving Repr, Inhabited

/-- The declarations of one package version, in source order. -/
abbrev Structure := List Declaration

namespace Declaration

def name : Declaration → String
  | enumeration n _ | classType n _ _ | interface n _ _ | method n _ _ => n
  | property n _ | parameter n _ | typeAlias n _ => n

def kind : Declaration → Kind
  | enumeration .. => .enumeration
  | classType .. => .classType
  | interface .. => .interface
  | method .. => .method
  | property .. => .property
  | parameter .. => .parameter
  | typeAlias .. => .typeAlias

/-- The members of a class or an interface. -/
def members : Declaration → List Declaration
  | classType _ ms _ | interface _ ms _ => ms
  | _ => []

/-- The values of an enumeration. -/
def values : Declaration → List String
  | enumeration _ vs => vs
  | _ => []

/-- The written type of a property, parameter or alias. -/
def type? : Declaration → Option String
  | property _ t | parameter _ t | typeAlias _ t => some t
  | _ => none

/-- A declaration as it stands in a parameter list. -/
def fragment (d : Declaration) : String := d.name ++ ": " ++ d.type?.getD "void"

/-- The parameter list of a method, without its brackets. -/
def parameterList (ps : List Declaration) : String := ", ".intercalate (ps.map fragment)

/-- Strings in code point order. -/
def sorted (vs : List String) : List String := vs.mergeSort (fun a b => decide (a ≤ b))

/-! Declarations built step by step. A step that does not fit the kind changes nothing. -/

def addValue : Declaration → String → Declaration
  | enumeration n vs, v => enumeration n (vs ++ [v])
  | d, _ => d

def addMember : Declaration → Declaration → Declaration
  | classType n ms s, m => classType n (ms ++ [m]) s
  | interface n ms bs, m => interface n (ms ++ [m]) bs
  | d, _ => d

def setSuperclass : Declaration → String → Declaration
  | classType n ms _, s => classType n ms (some s)
  | d, _ => d

def addBase : Declaration → String → Declaration
  | interface n ms bs, b => interface n ms (bs ++ [b])
  | d, _ => d

def addParameter : Declaration → Declaration → Declaration
  | method n ps r, p => method n (ps ++ [p]) r
  | d, _ => d

def setResult : Declaration → String → Declaration
  | method n ps _, r => method n ps (some r)
  | d, _ => d

/-- A small structure with every kind that stands at top level. -/
def sample : Structure := [
  enumeration "GameMode" ["adventure", "creative", "survival"],
  classType "Entity" [property "id" "string", method "kill" [] (some "boolean")] none,
  interface "EntityQueryOptions"
    [property "type" "string | undefined", property "maxDistance" "number"] [],
  method "clearRun" [parameter "runId" "number"] none,
  typeAlias "Vector3" "\x7b x: number, y: number, z: number \x7d",
  property "world" "World"]

example : fragment (method "m" [] none) = "m: void" := by decide

end Declaration
end ApiSurface
