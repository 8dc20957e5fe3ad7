/-! Scanners: a scanner takes a beginning of a text and hands on the rest, or it fails. -/
namespace ApiSurface.Text

abbrev Scan := StateT (List Char) Option

namespace Scan

variable {α : Type}

def fail : Scan α := fun _ => none

/-- The next character, left in place. -/
def peek? : Scan (Option Char) := fun cs => some (cs.head?, cs)

/-- The next character; there must be one. -/
def next : Scan Char
  | [] => none
  | c :: cs => some (c, cs)

/-- One given character. -/
def char (c : Char) : Scan Unit
  | [] => none
  | d :: ds => if d = c then some ((), ds) else none

/-- One character after the other. -/
def chars : List Char → Scan Unit
  | [] => pure ()
  | c :: cs => do char c; chars cs

/-- All characters of a class at the head of the text. -/
def run (p : Char → Bool) : Scan (List Char) := fun cs => some (cs.takeWhile p, cs.dropWhile p)

/-- All characters of a class at the head of the text; there must be one. -/
def someRun (p : Char → Bool) : Scan (List Char) := do
  match ← run p with
  | [] => fail
  | ds => pure ds

/-- What a scanner takes, or nothing if it fails. -/
def attempt (s : Scan α) : Scan (Option α) := fun cs =>
  match s cs with
  | some (a, rest) => some (some a, rest)
  | none => some (none, cs)

/-- The end of the text. -/
def finish : Scan Unit
  | [] => some ((), [])
  | _ => none

@[simp] theorem run_apply (p : Char → Bool) (cs : List Char) :
    run p cs = some (cs.takeWhile p, cs.dropWhile p) := rfl

end Scan
end ApiSurface.Text
