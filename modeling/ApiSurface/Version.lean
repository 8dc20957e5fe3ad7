import ApiSurface.Text.DecimalDigit
import ApiSurface.Text.Scan

/-! Versions of a package and their order. A version has the package numbers and may name a tag, the
game version it was made for, a build and a revision: `1.5.0-beta.1.20.20-preview.23`. Older texts
put the build before the game version: `1.1.0-beta.release.1.19.50`. -/
namespace ApiSurface

/-- Three numbers with points between them. -/
structure Semver where
  major : Nat
  minor : Nat
  patch : Nat
  deriving Repr, DecidableEq

namespace Semver

def display (s : Semver) : String :=
  toString s.major ++ "." ++ toString s.minor ++ "." ++ toString s.patch

def compare (a b : Semver) : Ordering :=
  ((Ord.compare a.major b.major).then (Ord.compare a.minor b.minor)).then
    (Ord.compare a.patch b.patch)

/-- A missing version comes after every other one. -/
def compareMissingLast : Option Semver → Option Semver → Ordering
  | some a, some b => a.compare b
  | none, some _ => .gt
  | some _, none => .lt
  | none, none => .eq

end Semver

namespace Version

/-- How finished a package version is. -/
inductive Tag
  | other
  | beta
  | rc
  | release
  deriving Repr, DecidableEq

def Tag.rank : Tag → Nat
  | other => 0
  | beta => 1
  | rc => 2
  | release => 3

def Tag.name : Tag → String
  | other => "other"
  | beta => "beta"
  | rc => "rc"
  | release => "release"

/-- The tag a word stands for. -/
def Tag.ofWord (word : List Char) : Tag :=
  if word = "beta".toList then beta
  else if word = "rc".toList then rc
  else if word = "release".toList then release
  else other

/-- The channel a package version was built for. -/
inductive Build
  | other
  | preview
  | stable
  deriving Repr, DecidableEq

def Build.rank : Build → Nat
  | other => 0
  | preview => 1
  | stable => 2

def Build.name : Build → String
  | other => "other"
  | preview => "preview"
  | stable => "stable"

/-- The build a word stands for. -/
def Build.ofWord (word : List Char) : Build :=
  if word = "preview".toList then preview
  else if word = "stable".toList then stable
  else other

/-- A version with no build comes before every other one. -/
def Build.compareMissingFirst : Option Build → Option Build → Ordering
  | some a, some b => Ord.compare a.rank b.rank
  | none, some _ => .lt
  | some _, none => .gt
  | none, none => .eq

end Version

structure Version where
  semver : Semver
  tag : Version.Tag
  game : Option Semver
  build : Option Version.Build
  revision : Nat
  deriving Repr, DecidableEq

namespace Version

/-! The two written forms. -/

open Text (Scan)
open Text.Scan

def digits : Scan (List Char) := someRun Text.isDecimalDigit

def word : Scan (List Char) := someRun fun c => 'a' ≤ c && c ≤ 'z'

/-- Three runs of digits with points between them. -/
def triple : Scan (List Char × List Char × List Char) := do
  let a ← digits
  char '.'
  let b ← digits
  char '.'
  return (a, b, ← digits)

/-- A revision with a point that may be missing, up to the end of the text. -/
def ending : Scan (Option (List Char)) := do
  let _ ← attempt (char '.')
  let r ← attempt digits
  finish
  return r

/-- The parts of a version as they are written. -/
structure Parts where
  semver : List Char × List Char × List Char
  tag : Option (List Char) := none
  game : Option (List Char × List Char × List Char) := none
  build : Option (List Char) := none
  revision : Option (List Char) := none
  deriving Repr, DecidableEq

/-- `1.5.0`, or `1.5.0-beta.1.20.20-preview.23` with or without the revision. -/
def currentParts : Scan Parts := do
  let semver ← triple
  match ← get with
  | [] => return ⟨semver, none, none, none, none⟩
  | _ =>
    char '-'
    let tag ← word
    char '.'
    let game ← triple
    char '-'
    let build ← word
    return ⟨semver, tag, game, build, ← ending⟩

/-- `1.1.0-beta.release.1.19.50.3`, with or without the build and the revision. -/
def olderParts : Scan Parts := do
  let semver ← triple
  char '-'
  let tag ← word
  let build ← attempt do char '.'; word
  char '.'
  let game ← triple
  return ⟨semver, tag, game, build, ← ending⟩

/-- The unsigned 64-bit number that ASCII digits stand for. -/
def number? (ds : List Char) : Option Nat :=
  if ds.all Char.isDigit then
    let n := ds.foldl (fun n c => n * 10 + (c.toNat - 48)) 0
    if n < UInt64.size then some n else none
  else none

def semver? : List Char × List Char × List Char → Option Semver
  | (a, b, c) => return ⟨← number? a, ← number? b, ← number? c⟩

/-- A version in the current form. Without a tag it is a release. -/
def ofCurrentParts? (p : Parts) : Option Version := do
  return {
    semver := ← semver? p.semver
    tag := (p.tag.map Tag.ofWord).getD .release
    game := p.game.bind semver?
    build := p.build.map Build.ofWord
    revision := (p.revision.bind number?).getD 0 }

/-- A version in the older form. The tag only counts next to a build, and the build `release` is the
stable one. -/
def ofOlderParts? (p : Parts) : Option Version := do
  return {
    semver := ← semver? p.semver
    tag := if p.build.isSome then (p.tag.map Tag.ofWord).getD .release else .release
    game := p.game.bind semver?
    build := p.build.map fun w => if w = "release".toList then .stable else Build.ofWord w
    revision := (p.revision.bind number?).getD 0 }

/-- The version a text stands for. A text in the current form is not tried as an older one. -/
def parse? (text : String) : Option Version :=
  match currentParts.run' text.toList with
  | some p => ofCurrentParts? p
  | none => (olderParts.run' text.toList).bind ofOlderParts?

/-! The order of versions. -/

def compare (a b : Version) : Ordering :=
  ((((a.semver.compare b.semver).then (Ord.compare a.tag.rank b.tag.rank)).then
    (Semver.compareMissingLast a.game b.game)).then
    (Build.compareMissingFirst a.build b.build)).then
    (Ord.compare a.revision b.revision)

/-- The order of version texts. Texts that are no versions come first and are equal. -/
def compareTexts (a b : String) : Ordering :=
  match parse? a, parse? b with
  | some a, some b => a.compare b
  | none, some _ => .lt
  | some _, none => .gt
  | none, none => .eq

/-- Values with a version text, in ascending order; equal ones stay as they are. -/
def sortOn {α : Type} (text : α → String) (xs : List α) : List α :=
  xs.mergeSort fun a b => (compareTexts (text a) (text b)).isLE

def sortTexts (xs : List String) : List String := sortOn id xs

end Version
end ApiSurface
