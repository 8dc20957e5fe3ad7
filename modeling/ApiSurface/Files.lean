import ApiSurface.Path

/-! What a program may do with files, and what may go wrong. -/
namespace ApiSurface

inductive FileFault
  | notFound
  | notDirectory
  | isDirectory
  | alreadyExists
  | other (message : String)
  deriving Repr, DecidableEq

/-- The words of the operating system for a fault. -/
def FileFault.message : FileFault → String
  | notFound => "No such file or directory (os error 2)"
  | notDirectory => "Not a directory (os error 20)"
  | isDirectory => "Is a directory (os error 21)"
  | alreadyExists => "File exists (os error 17)"
  | other m => m

/-- Access to files. -/
class Files (m : Type → Type) where
  isFile : Path → m Bool
  read : Path → m (Except FileFault String)
  /-- The names of the files that stand in a directory. A file holds none. -/
  list : Path → m (Except FileFault (List String))
  /-- Make a directory with all directories on the way to it. -/
  makeDirectories : Path → m (Except FileFault Unit)
  /-- Write a file, over an earlier one. -/
  write : Path → String → m (Except FileFault Unit)

end ApiSurface
