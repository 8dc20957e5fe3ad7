/-! Paths of files. Slashes divide a path into parts; empty parts and single dots, but for a dot at
the very start, say nothing. -/
namespace ApiSurface

abbrev Path := String

namespace Path

/-- The parts between slashes. -/
def split : List Char → List (List Char)
  | [] => [[]]
  | c :: cs =>
    if c = '/' then [] :: split cs
    else match split cs with
      | [] => [[c]]
      | part :: rest => (c :: part) :: rest

def isAbsolute (p : Path) : Bool := p.toList.head? = some '/'

/-- A part that says nothing. -/
def isVoid (part : List Char) : Bool := part = [] || part = ['.']

/-- The parts that say something. A dot counts at the very start. -/
def parts (p : Path) : List (List Char) :=
  match split p.toList with
  | ['.'] :: rest => ['.'] :: rest.filter (!isVoid ·)
  | all => all.filter (!isVoid ·)

/-- The last part, when it is the name of a file or directory. -/
def fileName? (p : Path) : Option (List Char) :=
  match (parts p).getLast? with
  | some ['.'] => none
  | some ['.', '.'] => none
  | last => last

/-- A name cut at its last dot. A dot at the start is part of the name. -/
def splitName (name : List Char) : List Char × Option (List Char) :=
  let back := name.reverse
  let extension := back.takeWhile (· ≠ '.')
  match back.dropWhile (· ≠ '.') with
  | '.' :: c :: stem => ((c :: stem).reverse, some extension.reverse)
  | _ => (name, none)

/-- The name of a file without its extension. A path without a name stands for itself. -/
def stem (p : Path) : String :=
  match fileName? p with
  | some name => String.ofList (splitName name).1
  | none => p

/-- What stands behind the last dot of the name. -/
def extension? (p : Path) : Option String :=
  (fileName? p).bind fun name => (splitName name).2.map String.ofList

/-- A path without its last part; an absolute path without parts has no parent. -/
def parent? (p : Path) : Option Path :=
  let root := if p.isAbsolute then "/" else ""
  match parts p with
  | [] => none
  | ps => some (root ++ "/".intercalate (ps.dropLast.map String.ofList))

/-- A name put behind the path of a directory. -/
def join (directory : Path) (name : String) : Path :=
  match directory.toList.getLast? with
  | none => name
  | some '/' => directory ++ name
  | some _ => directory ++ "/" ++ name

example : stem "a/b/1.1.0-beta.json" = "1.1.0-beta" := by decide
example : stem ".json" = ".json" := by decide
example : extension? "x." = some "" := by decide

end Path
end ApiSurface
