import ApiSurface.Files

/-! A file tree as a value: the files and directories below one directory, by the names that lead to
them. -/
namespace ApiSurface

structure FileTree where
  /-- What stands where; the directory at the top is left out. -/
  entries : List (List String × Option String) := []
  deriving Repr

namespace FileTree

/-- What stands at a place. A file has a content and a directory has none. -/
def at? (t : FileTree) : List String → Option (Option String)
  | [] => some none
  | place => (t.entries.find? (·.1 = place)).map (·.2)

/-- Put something in a place, over what stood there. -/
def put (t : FileTree) (place : List String) (e : Option String) : FileTree :=
  ⟨if t.entries.any (·.1 = place) then
      t.entries.map fun x => if x.1 = place then (place, e) else x
    else t.entries ++ [(place, e)]⟩

/-- Follow names from a place. Every place but the last must be a directory. -/
def follow (t : FileTree) (here : List String) : List String → Except FileFault (List String)
  | [] => .ok here
  | name :: names =>
    match t.at? here with
    | some none =>
      if name = "." then follow t here names
      else if name = ".." then
        if here = [] then .error .notFound else follow t here.dropLast names
      else if (t.at? (here ++ [name])).isSome then follow t (here ++ [name]) names
      else .error .notFound
    | some (some _) => .error .notDirectory
    | none => .error .notFound

/-- The names of a path as they are followed. A slash at the end asks for a directory. -/
def namesOf (p : Path) : List String :=
  (Path.split p.toList).filter (· ≠ []) |>.map String.ofList
    |> fun names => if p.toList.getLast? = some '/' then names ++ ["."] else names

/-- The place a path leads to. Only relative paths lead anywhere in a tree. -/
def resolve (t : FileTree) (p : Path) : Except FileFault (List String) :=
  if p = "" || p.isAbsolute then .error .notFound else t.follow [] (namesOf p)

def isFile (t : FileTree) (p : Path) : Bool :=
  match t.resolve p with
  | .ok place => (t.at? place).join.isSome
  | .error _ => false

def isDirectory (t : FileTree) (p : Path) : Bool :=
  match t.resolve p with
  | .ok place => t.at? place = some none
  | .error _ => false

def read (t : FileTree) (p : Path) : Except FileFault String := do
  match t.at? (← t.resolve p) with
  | some (some content) => .ok content
  | some none => .error .isDirectory
  | none => .error .notFound

/-- The names of the files that stand in a directory. -/
def list (t : FileTree) (p : Path) : Except FileFault (List String) := do
  let place ← t.resolve p
  return t.entries.filterMap fun (q, e) =>
    if q.dropLast = place && e.isSome && q ≠ [] then q.getLast? else none

/-- The place of a path that need not exist, in a directory that does. -/
def newPlace (t : FileTree) (p : Path) : Except FileFault (List String × Bool) := do
  if p = "" || p.isAbsolute then .error .notFound
  let names := (Path.split p.toList).filter (· ≠ []) |>.map String.ofList
  match names.getLast? with
  | none => .error .notFound
  | some name =>
    if name = "." || name = ".." then return (← t.follow [] names, true)
    let directory ← t.follow [] names.dropLast
    match t.at? directory with
    | some none => return (directory ++ [name], false)
    | some (some _) => .error .notDirectory
    | none => .error .notFound

def write (t : FileTree) (p : Path) (content : String) : Except FileFault FileTree := do
  let (place, _) ← t.newPlace p
  if p.toList.getLast? = some '/' || t.at? place = some none then .error .isDirectory
  else return t.put place (some content)

def makeDirectory (t : FileTree) (p : Path) : Except FileFault FileTree := do
  let (place, _) ← t.newPlace p
  if (t.at? place).isSome then .error .alreadyExists else return t.put place none

def makeDirectoriesWithin : Nat → FileTree → Path → FileTree × Except FileFault Unit
  | 0, t, _ => (t, .error .notFound)
  | fuel + 1, t, p =>
    let settle (t : FileTree) (fault : FileFault) :=
      (t, if t.isDirectory p then .ok () else .error fault)
    if p = "" then (t, .ok ())
    else match t.makeDirectory p with
      | .ok t => (t, .ok ())
      | .error .notFound =>
        match Path.parent? p with
        | none => (t, .error (.other "failed to create whole tree"))
        | some parent =>
          match makeDirectoriesWithin fuel t parent with
          | (t, .ok ()) =>
            match t.makeDirectory p with
            | .ok t => (t, .ok ())
            | .error fault => settle t fault
          | failed => failed
      | .error fault => settle t fault

/-- Make a directory and, as far as they are missing, those on the way to it. -/
def makeDirectories (t : FileTree) (p : Path) : FileTree × Except FileFault Unit :=
  makeDirectoriesWithin (p.length + 1) t p

/-- A tree with some files and the directories they need. -/
def ofFiles (files : List (Path × String)) : FileTree :=
  files.foldl
    (fun t (p, content) =>
      let place := (Path.parts p).map String.ofList
      let directories := (List.range place.length).tail.map fun n => place.take n
      (directories.foldl (fun t d => if (t.at? d).isSome then t else t.put d none) t).put place
        (some content))
    {}

/-- The files of a tree, by path. -/
def files (t : FileTree) : List (Path × String) :=
  t.entries.filterMap fun (place, e) => e.map fun content => ("/".intercalate place, content)

/-- The files of the second tree that are not the same in the first one. -/
def written (before after : FileTree) : List (Path × String) :=
  after.files.filter fun f => !before.files.contains f

instance : Files (StateM FileTree) where
  isFile p := fun t => (t.isFile p, t)
  read p := fun t => (t.read p, t)
  list p := fun t => (t.list p, t)
  makeDirectories p := fun t =>
    let (t, result) := t.makeDirectories p
    (result, t)
  write p content := fun t =>
    match t.write p content with
    | .ok t => (.ok (), t)
    | .error fault => (.error fault, t)

end FileTree
end ApiSurface
