import ApiSurface.Change
import ApiSurface.Comparison.Operations
import ApiSurface.Declaration

/-! Comparison of the value lists of two enumerations. Both lists are sorted, and the operations
from one to the other are read as runs. A removed run directly followed by an added one is a rename:
its values are paired off place by place. -/
namespace ApiSurface

/-- Values next to each other of which one and the same is told. -/
inductive Run (α : Type)
  | kept
  | removed (values : List α)
  | added (values : List α)
  deriving Repr, DecidableEq

namespace Run

variable {α : Type}

/-! The runs so far are given in reverse. What is of the kind of the last one is merged into it. -/

def pushKept : List (Run α) → List (Run α)
  | kept :: rs => kept :: rs
  | rs => kept :: rs

def pushRemoved (vs : List α) : List (Run α) → List (Run α)
  | removed ws :: rs => removed (ws ++ vs) :: rs
  | rs => removed vs :: rs

def pushAdded (vs : List α) : List (Run α) → List (Run α)
  | added ws :: rs => added (ws ++ vs) :: rs
  | rs => added vs :: rs

/-- The runs after one more operation from the old list to the new one. -/
def push (old new : List α) (rs : List (Run α)) : Operation → List (Run α)
  | .equal => pushKept rs
  | .delete s => pushRemoved (s.slice old) rs
  | .insert s => pushAdded (s.slice new) rs
  | .replace s t => pushAdded (t.slice new) (pushRemoved (s.slice old) rs)

/-- The runs of some operations from the old list to the new one. -/
def ofOperations (old new : List α) (os : List Operation) : List (Run α) :=
  (os.foldl (push old new) []).reverse

end Run

namespace Comparison

/-- A value together with the name of its enumeration. -/
def enumValue (enum value : String) : String := enum ++ "." ++ value

/-- Pair off removed and added values. What is left over is only removed, or only added. -/
def pairOff (oldName newName : String) (removed added : List String) : List Change :=
  List.zipWith (fun o n => .changed oldName "" (enumValue oldName o) (enumValue newName n))
      removed added
    ++ (removed.drop added.length).map (fun o => .removed oldName "" (enumValue oldName o))
    ++ (added.drop removed.length).map (fun n => .added newName "" (enumValue newName n))

/-- The changes that a list of runs stands for. -/
def ofRuns (oldName newName : String) : List (Run String) → List Change
  | [] => []
  | .removed rs :: .added as :: rest => pairOff oldName newName rs as ++ ofRuns oldName newName rest
  | .removed rs :: rest => pairOff oldName newName rs [] ++ ofRuns oldName newName rest
  | .added as :: rest => pairOff oldName newName [] as ++ ofRuns oldName newName rest
  | .kept :: rest => ofRuns oldName newName rest

/-- The runs from one sorted list of values to another. -/
def enumRuns (old new : List String) : List (Run String) :=
  let old := Declaration.sorted old
  let new := Declaration.sorted new
  Run.ofOperations old new (Edit.operations old new)

/-- The changes from one list of enumeration values to another. -/
def compareEnumValues (oldName : String) (old : List String) (newName : String)
    (new : List String) : List Change :=
  ofRuns oldName newName (enumRuns old new)

@[simp] theorem pairOff_nil (oldName newName : String) : pairOff oldName newName [] [] = [] := rfl

end Comparison
end ApiSurface
