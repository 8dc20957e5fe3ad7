import ApiSurface.Path
import ApiSurface.Report.Format
import ApiSurface.Toml.Parser

/-! Settings of the program. Every setting may be left out. -/
namespace ApiSurface

/-- How reports are made. -/
structure ReportSettings where
  /-- Names on both sides are compared once. -/
  dedupe : Bool := false
  format : Report.Format := .text
  color : Bool := true
  deriving Repr, DecidableEq

structure Settings where
  report : ReportSettings := {}
  /-- The directory that reports are written to. -/
  directory : Path := "changes"
  deriving Repr

namespace Settings

/-- The slots of a section, by name or by place. A section may be a table, a list of its slots in
order, or a date, which fills no slot. -/
def slot? (section' : Toml) (name : String) (place : Nat) : Option (Option Toml) :=
  match section' with
  | .table _ es => some (Toml.find? name es)
  | .array items => some items[place]?
  | .tables items => some (items[place]?.map (.table .header))
  | .dateTime => some none
  | _ => none

/-- A slot that keeps its default when it is not filled. -/
def read? {α : Type} (slot : Option Toml) (default : α) (f : Toml → Option α) : Option α :=
  match slot with
  | none => some default
  | some v => f v

def boolean? : Toml → Option Bool
  | .boolean b => some b
  | _ => none

def text? : Toml → Option String
  | .string s => some s
  | _ => none

/-- A value that says no more than its key. -/
def isEmpty : Toml → Bool
  | .array items => items.isEmpty
  | .tables items => items.isEmpty
  | .table _ es => es.isEmpty
  | _ => false

/-- A format: its name, or a table with the name as its key and nothing behind it. -/
def format? : Toml → Option Report.Format
  | .string s => Report.Format.ofName? s
  | .table o ((name, v) :: rest) =>
    if isEmpty v && (rest.isEmpty || !o.isInline) then Report.Format.ofName? name else none
  | _ => none

def reportSettings? (v : Toml) : Option ReportSettings := do
  let start : ReportSettings := {}
  return {
    dedupe := ← read? (← slot? v "dedupe_shared_names" 0) start.dedupe boolean?
    format := ← read? (← slot? v "format" 1) start.format format?
    color := ← read? (← slot? v "color" 2) start.color boolean? }

def directory? (v : Toml) : Option Path := do
  read? (← slot? v "directory" 0) ({} : Settings).directory text?

/-- The settings in a document. What they do not know is ignored. -/
def ofEntries? (es : Toml.Entries) : Option Settings := do
  return {
    report := ← read? (Toml.find? "diff" es) {} reportSettings?
    directory := ← read? (Toml.find? "output" es) ({} : Settings).directory directory? }

/-- The settings in a text. -/
def parse? (text : String) : Option Settings := (Toml.parse? text).bind ofEntries?

/-- The name of the file with the settings. -/
def fileName : String := "dts-etch.toml"

end Settings
end ApiSurface
