import ApiSurface.Change

/-! Reports for a terminal: one line for each change and a line that counts them. A report is put
together as a plain text, or it is shown piece by piece by a writer, which may know color. -/
namespace ApiSurface.Report.Terminal

/-- How a line stands out. -/
inductive Ink
  | green
  | red
  | yellow
  | bold
  deriving Repr, DecidableEq

/-- The number that switches an ink on. -/
def Ink.code : Ink → String
  | green => "32"
  | red => "31"
  | yellow => "33"
  | bold => "1"

/-- What a writer puts in front of text in some ink, and behind it. -/
structure Writer where
  start : Ink → String
  finish : String

/-- A writer that knows no color. -/
def Writer.colorless : Writer := ⟨fun _ => "", ""⟩

/-- A writer for terminals with color. Everything is switched off before and after an ink. -/
def Writer.ansi : Writer := ⟨fun ink => "\x1b[0m\x1b[" ++ ink.code ++ "m", "\x1b[0m"⟩

/-- Text in some ink. -/
def Writer.paint (w : Writer) (ink : Ink) (s : String) : String := w.start ink ++ s ++ w.finish

/-- The ink of a change; a separator has none. -/
def ink? : Change → Option Ink
  | .added .. => some .green
  | .removed .. => some .red
  | .changed .. => some .yellow
  | .separator => none

/-- The line of a change. A separator is a line break by itself. -/
def Writer.line (w : Writer) (c : Change) : String :=
  match ink? c with
  | some ink => w.paint ink c.display ++ "\n"
  | none => "\n"

/-- What a writer shows of a list of changes: a line for each of them, and their count. -/
def Writer.report (w : Writer) (cs : List Change) : String :=
  String.join (cs.map w.line) ++ w.paint .bold (Change.Summary.ofList cs).display ++ "\n"

/-- One line for each change. -/
def lines (cs : List Change) : String := String.join (cs.map fun c => c.display ++ "\n")

/-- The lines of a list of changes and their count. -/
def plain (cs : List Change) : String := lines cs ++ (Change.Summary.ofList cs).display ++ "\n"

/-- The report on a terminal with color. -/
def colored (cs : List Change) : String := Writer.ansi.report cs

example : plain [.separator] = "\n0 added, 0 removed, 0 changed\n" := by decide

end ApiSurface.Report.Terminal
