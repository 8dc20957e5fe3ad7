import ApiSurface.CommandLine

/-! The program, run on the files of the machine. -/
namespace ApiSurface

/-- What the machine reports, as a fault. -/
def FileFault.ofError : IO.Error → FileFault
  | .noFileOrDirectory _ _ _ => notFound
  | .alreadyExists _ _ _ => alreadyExists
  | .inappropriateType _ code details =>
    if code = 20 then notDirectory else if code = 21 then isDirectory else other details
  | e => other (toString e)

/-- The result of an action, or the fault that stops it. -/
def attempted {α : Type} (act : IO α) : IO (Except FileFault α) := do
  try
    return .ok (← act)
  catch e =>
    return .error (FileFault.ofError e)

/-- A path as the root of a directory entry. -/
def rootAt (p : Path) : IO.FS.DirEntry := ⟨p, ""⟩

/-- Is there a file here? -/
def isFileAt (metadata : IO IO.FS.Metadata) : IO Bool := do
  try
    return (← metadata).type == .file
  catch _ =>
    return false

instance : Files IO where
  isFile p := isFileAt (rootAt p).root.metadata
  read p := attempted (IO.FS.readFile p)
  list p := attempted do
    let files ← (← (rootAt p).root.readDir).filterM fun e => isFileAt e.path.metadata
    return (files.map (·.fileName)).toList
  makeDirectories p := attempted (IO.FS.createDirAll p)
  write p text := attempted (IO.FS.writeFile p text)

end ApiSurface

open ApiSurface in
/-- Prints the outcome of one run. -/
def main (args : List String) : IO UInt32 := do
  let o ← (CommandLine.run args : IO CommandLine.Outcome)
  IO.print o.output
  for line in o.messages do
    IO.eprintln line
  for line in (o.failure.map (·.report)).getD [] do
    IO.eprintln line
  return o.status.toUInt32
