/-! Places in a source text. Lines are counted from one and columns from zero, and a column counts
characters. Only a line feed ends a line. -/
namespace ApiSurface

structure Location where
  line : Nat
  column : Nat
  deriving Repr, DecidableEq

namespace Location

def display (l : Location) : String := toString l.line ++ ":" ++ toString l.column

def start : Location := ⟨1, 0⟩

/-- The place behind one more character. -/
def step (l : Location) (c : Char) : Location :=
  if c = '\n' then ⟨l.line + 1, 0⟩ else ⟨l.line, l.column + 1⟩

/-- The place behind the first `offset` characters of a text. -/
def ofOffset (text : List Char) (offset : Nat) : Location := (text.take offset).foldl step start

@[simp] theorem ofOffset_zero (text : List Char) : ofOffset text 0 = start := rfl

example : ofOffset "ab\ncd".toList 4 = ⟨2, 1⟩ := by decide

end Location
end ApiSurface
