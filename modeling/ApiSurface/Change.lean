import ApiSurface.Text.Markup

/-! Change records: what one comparison reports, and the texts a record is shown as. -/
namespace ApiSurface

/-- A line of a report. `group` names the declaration the change belongs to, `detail` is put in
front of the values. -/
inductive Change
  | added (group detail new : String)
  | removed (group detail old : String)
  | changed (group detail old new : String)
  /-- Closes the changes of one class or interface. -/
  | separator
  deriving Repr, DecidableEq

namespace Change

def withDetail (d : String) : Change → Change
  | added g _ n => added g d n
  | removed g _ o => removed g d o
  | changed g _ o n => changed g d o n
  | separator => separator

def group? : Change → Option String
  | added g _ _ | removed g _ _ | changed g _ _ _ => some g
  | separator => none

def detail : Change → String
  | added _ d _ | removed _ d _ | changed _ d _ _ => d
  | separator => ""

def old? : Change → Option String
  | removed _ _ o | changed _ _ o _ => some o
  | _ => none

def new? : Change → Option String
  | added _ _ n | changed _ _ _ n => some n
  | _ => none

def isSeparator : Change → Bool
  | separator => true
  | _ => false

/-- The word on the chip of a change. -/
def label : Change → String
  | added .. => "ADDED"
  | removed .. => "REMOVED"
  | changed .. => "CHANGED"
  | separator => ""

/-- The class of the chip of a change. -/
def chipClass : Change → String
  | added .. => "added"
  | removed .. => "removed"
  | changed .. => "changed"
  | separator => ""

/-- The value of a change, or both values with an arrow between them. -/
def valueText : Change → String
  | added _ _ n => n
  | removed _ _ o => o
  | changed _ _ o n => o ++ " -> " ++ n
  | separator => ""

/-- The sign a change is marked with. -/
def sign : Change → String
  | added .. => "+"
  | removed .. => "-"
  | changed .. => "!"
  | separator => ""

/-- The line of a change in a text report. -/
def display : Change → String
  | separator => ""
  | c => c.sign ++ " " ++ c.detail ++ c.valueText

/-- The line of a change in a page. -/
def markup : Change → String
  | separator => "<br>"
  | c =>
    "<div class=\"change\"><div class=\"chip chip-" ++ c.chipClass ++ "\">" ++ c.label ++ "</div> "
      ++ Text.escapeElement c.detail ++ Text.escapeElement c.valueText ++ "</div>"

@[simp] theorem display_separator : display separator = "" := rfl
@[simp] theorem markup_separator : markup separator = "<br>" := rfl

/-- How many changes of each sort a list holds. -/
structure Summary where
  added : Nat := 0
  removed : Nat := 0
  changed : Nat := 0
  deriving Repr, DecidableEq

namespace Summary

/-- Count one more change. -/
def count (s : Summary) : Change → Summary
  | .added .. => { s with added := s.added + 1 }
  | .removed .. => { s with removed := s.removed + 1 }
  | .changed .. => { s with changed := s.changed + 1 }
  | .separator => s

def ofList (cs : List Change) : Summary := cs.foldl count {}

def total (s : Summary) : Nat := s.added + s.removed + s.changed

def isEmpty (s : Summary) : Bool := s.total = 0

def display (s : Summary) : String :=
  toString s.added ++ " added, " ++ toString s.removed ++ " removed, " ++ toString s.changed
    ++ " changed"

end Summary
end Change
end ApiSurface
