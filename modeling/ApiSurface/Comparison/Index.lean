import ApiSurface.Declaration

/-! Lookup of declarations by name. Of several siblings with one name the last one counts. Each
entry knows the container it was found in, and its display text is qualified by that container. -/
namespace ApiSurface

/-- A declaration together with the name of the class or interface that holds it. -/
structure Linked where
  declaration : Declaration
  parent : Option String
  deriving Repr, Inhabited

namespace Linked

def name (l : Linked) : String := l.declaration.name

def kind (l : Linked) : Kind := l.declaration.kind

/-- The name changes of this declaration are grouped under. -/
def group (l : Linked) : String := l.parent.getD l.name

/-- What stands in front of the name of a member. -/
def qualifier (l : Linked) : String :=
  match l.parent with
  | some p => p ++ "."
  | none => ""

/-- The text by which leaves are compared and shown. -/
def display (l : Linked) : String :=
  match l.declaration with
  | .enumeration n _ => "enum " ++ n
  | .classType n _ _ => "class " ++ n
  | .interface n _ _ => "interface " ++ n
  | .method n ps (some r) =>
    l.qualifier ++ n ++ "(" ++ Declaration.parameterList ps ++ "): " ++ r
  | .method n ps none => l.qualifier ++ n ++ "(" ++ Declaration.parameterList ps ++ ")"
  | .property n t | .parameter n t => l.qualifier ++ n ++ ": " ++ t
  | .typeAlias n t => "type " ++ n ++ " = " ++ t

end Linked

/-- Entries with strictly ascending names. -/
structure Index where
  entries : List (String × Linked)
  deriving Repr, Inhabited

namespace Index

def empty : Index := ⟨[]⟩

/-- Put an entry in its place, over an earlier one of the same name. -/
def put (name : String) (l : Linked) : List (String × Linked) → List (String × Linked)
  | [] => [(name, l)]
  | (n, m) :: rest =>
    if name < n then (name, l) :: (n, m) :: rest
    else if n < name then (n, m) :: put name l rest
    else (name, l) :: rest

/-- The index of a list of siblings. -/
def ofList (parent : Option String) (ds : List Declaration) : Index :=
  ⟨ds.foldl (fun es d => put d.name ⟨d, parent⟩ es) []⟩

/-- The index of a whole structure. -/
def ofStructure (s : Structure) : Index := ofList none s

/-- The index of the members of a container; without a container it is empty. -/
def ofMembers : Option Declaration → Index
  | some d => ofList (some d.name) d.members
  | none => empty

def get? (i : Index) (name : String) : Option Linked :=
  (i.entries.find? (·.1 = name)).map (·.2)

def contains (i : Index) (name : String) : Bool := (i.get? name).isSome

/-- All names, in ascending order. -/
def names (i : Index) : List String := i.entries.map (·.1)

def size (i : Index) : Nat := i.entries.length

@[simp] theorem size_names (i : Index) : i.names.length = i.size := by simp [names, size]

end Index
end ApiSurface
