import ApiSurface.Comparison.Depth
import ApiSurface.Comparison.EnumValues

/-! Comparison of two structures. Both are indexed by name, and the entries of one name are compared
with each other: leaves by their display text, enumerations by their values, classes and interfaces
member by member. -/
namespace ApiSurface.Comparison

/-- What two entries of one name are compared as. -/
inductive Route
  | enumerations
  | members
  | leaves
  deriving Repr, DecidableEq

/-- An old enumeration is compared by its values, whatever it has become. Everything else is
compared as what it is now, or as what it was when it is gone. -/
def route? (old new : Option Kind) : Option Route :=
  if old = some .enumeration then some .enumerations
  else (new.or old).map fun kind =>
    if kind.isContainer then .members else if kind.isLeaf then .leaves else .enumerations

/-- The change of the kind of a declaration. -/
def kindChange : Option Linked → Option Linked → List Change
  | some o, some n =>
    if o.kind = n.kind then []
    else [.changed o.name (n.name ++ " type: ") o.kind.name n.kind.name]
  | _, _ => []

/-- The changes of the values of two enumerations. A side that is no enumeration has none. -/
def compareEnumerations : Option Linked → Option Linked → List Change
  | some o, some n =>
    compareEnumValues o.name o.declaration.values n.name n.declaration.values
  | some o, none => compareEnumValues o.name o.declaration.values o.name []
  | none, some n => compareEnumValues n.name [] n.name n.declaration.values
  | none, none => []

/-- The change between two display texts. -/
def compareLeaves : Option Linked → Option Linked → List Change
  | some o, some n =>
    if o.display = n.display then [] else [.changed n.group "" o.display n.display]
  | none, some n => [.added n.group "" n.display]
  | some o, none => [.removed o.group "" o.display]
  | none, none => []

/-- Changes of the members of a container, with a separator behind them. -/
def close (changes : List Change) : List Change :=
  if changes.isEmpty then [] else changes ++ [.separator]

/-- The names to compare: all old ones, then the new ones. With `dedupe`, names on both sides come
once. -/
def names (dedupe : Bool) (old new : Index) : List String :=
  old.names ++ if dedupe then new.names.filter (!old.contains ·) else new.names

theorem depth?_members_lt {old new : Option Linked} (n : String)
    (h : route? (old.map (·.kind)) (new.map (·.kind)) = some .members) :
    Linked.depth? ((Index.ofMembers (old.map (·.declaration))).get? n)
        + Linked.depth? ((Index.ofMembers (new.map (·.declaration))).get? n)
      < Linked.depth? old + Linked.depth? new := by
  have ho := Index.depth?_get?_ofMembers old n
  have hn := Index.depth?_get?_ofMembers new n
  have lt := fun l : Linked => Declaration.listDepth_members_lt l.declaration
  cases old with
  | some l =>
    have := lt l
    simp only [Linked.depth?] at *
    omega
  | none =>
    cases new with
    | none => simp [route?] at h
    | some l =>
      have := lt l
      simp only [Linked.depth?] at *
      omega

/-- The changes between two entries of one name. -/
def compareEntries (dedupe : Bool) (old new : Option Linked) : List Change :=
  kindChange old new ++
    match _h : route? (old.map (·.kind)) (new.map (·.kind)) with
    | some .enumerations => compareEnumerations old new
    | some .leaves => compareLeaves old new
    | some .members =>
      let olds := Index.ofMembers (old.map (·.declaration))
      let news := Index.ofMembers (new.map (·.declaration))
      close ((names dedupe olds news).flatMap fun n =>
        compareEntries dedupe (olds.get? n) (news.get? n))
    | none => []
termination_by Linked.depth? old + Linked.depth? new
decreasing_by exact depth?_members_lt n _h

/-- The changes between two indexes, name by name. -/
def compareIndexes (dedupe : Bool) (old new : Index) : List Change :=
  (names dedupe old new).flatMap fun n => compareEntries dedupe (old.get? n) (new.get? n)

/-- The changes from one structure to another. -/
def compare (dedupe : Bool) (old new : Structure) : List Change :=
  compareIndexes dedupe (Index.ofStructure old) (Index.ofStructure new)

end ApiSurface.Comparison
