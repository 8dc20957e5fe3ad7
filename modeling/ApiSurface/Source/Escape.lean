import ApiSurface.Source.Gap
import ApiSurface.Text.Identifier
import ApiSurface.Text.Scan

/-! Escapes in identifiers, string literals and templates. An escape stands for a code unit, and two
units that form a surrogate pair stand for one character. -/
namespace ApiSurface.Source
open Text Text.Scan

def hexValue? (c : Char) : Option Nat :=
  if c.isDigit then some (c.toNat - '0'.toNat)
  else if 'a' ≤ c && c ≤ 'f' then some (c.toNat - 'a'.toNat + 10)
  else if 'A' ≤ c && c ≤ 'F' then some (c.toNat - 'A'.toNat + 10)
  else none

/-- The number that hexadecimal digits spell. -/
def hexNumber? (cs : List Char) : Option Nat :=
  (cs.mapM hexValue?).map fun ds => ds.foldl (fun n d => 16 * n + d) 0

namespace Escape

/-- Exactly so many hexadecimal digits. -/
def fixed (count : Nat) : Scan Nat := fun cs => do
  let digits := cs.take count
  guard (digits.length = count)
  pure (← hexNumber? digits, cs.drop count)

/-- Hexadecimal digits up to a closing brace; no code point lies above 10FFFF. -/
def braced : Scan Nat := do
  let digits ← someRun fun c => (hexValue? c).isSome
  char '\x7d'
  match hexNumber? digits with
  | some n => if n ≤ 0x10FFFF then pure n else fail
  | none => fail

/-- A code point or a code unit, behind the letter that announces it. -/
def unicode : Scan Nat := do
  match ← peek? with
  | some '\x7b' => do
    char '\x7b'
    braced
  | _ => fixed 4

/-- A line feed, if one comes next. -/
def lineFeed : Scan Unit := fun cs =>
  match cs with
  | '\n' :: rest => some ((), rest)
  | _ => some ((), cs)

/-- What an escape stands for, behind its backslash. A line break stands for nothing, and no digit
but a lone zero is escaped. -/
def unit : Scan (Option Nat) := do
  match ← next with
  | 'n' => pure (some 10)
  | 't' => pure (some 9)
  | 'r' => pure (some 13)
  | 'b' => pure (some 8)
  | 'f' => pure (some 12)
  | 'v' => pure (some 11)
  | 'x' => some <$> fixed 2
  | 'u' => some <$> unicode
  | '\r' => do
    lineFeed
    pure none
  | '0' =>
    match ← peek? with
    | some c => if '0' ≤ c && c ≤ '7' then fail else pure (some 0)
    | none => pure (some 0)
  | c =>
    if '1' ≤ c && c ≤ '7' then fail
    else if isLineBreak c then pure none
    else pure (some c.toNat)

end Escape

def isHighSurrogate (n : Nat) : Bool := 0xD800 ≤ n && n < 0xDC00
def isLowSurrogate (n : Nat) : Bool := 0xDC00 ≤ n && n < 0xE000

/-- The characters of code units. A surrogate without its partner is no character, and three
replacement marks stand in its place. -/
def charsOfUnits : List Nat → List Char
  | [] => []
  | u :: v :: us =>
    if isHighSurrogate u && isLowSurrogate v then
      Char.ofNat (0x10000 + (u - 0xD800) * 0x400 + (v - 0xDC00)) :: charsOfUnits us
    else if isHighSurrogate u || isLowSurrogate u then
      '\ufffd' :: '\ufffd' :: '\ufffd' :: charsOfUnits (v :: us)
    else Char.ofNat u :: charsOfUnits (v :: us)
  | [u] =>
    if isHighSurrogate u || isLowSurrogate u then ['\ufffd', '\ufffd', '\ufffd'] else [Char.ofNat u]

/-- The code units of a string literal, behind its opening quote. -/
def stringUnits (quote : Char) : Nat → Scan (List Nat)
  | 0 => fail
  | n + 1 => do
    match ← next with
    | '\\' => do
      let u ← Escape.unit
      let us ← stringUnits quote n
      pure (u.toList ++ us)
    | c =>
      if c = quote then pure []
      else if c = '\n' || c = '\r' then fail
      else (c.toNat :: ·) <$> stringUnits quote n

/-- The value of a string literal, behind its opening quote. -/
def stringBody (quote : Char) : Scan String := fun cs =>
  ((fun us => String.ofList (charsOfUnits us)) <$> stringUnits quote (cs.length + 1)) cs

/-- The code units of a template without holes, from its spelling. A line break is a line feed. -/
def templateUnits : Nat → List Char → Option (List Nat)
  | 0, _ => none
  | _, [] => some []
  | n + 1, '\\' :: cs => do
    let (u, rest) ← Escape.unit cs
    pure (u.toList ++ (← templateUnits n rest))
  | n + 1, '\r' :: '\n' :: cs => (10 :: ·) <$> templateUnits n cs
  | n + 1, '\r' :: cs => (10 :: ·) <$> templateUnits n cs
  | n + 1, c :: cs => (c.toNat :: ·) <$> templateUnits n cs

/-- The value of a template without holes, from its spelling. -/
def templateValue? (spelling : String) : Option String :=
  (templateUnits (spelling.length + 1) spelling.toList).map fun us =>
    String.ofList (charsOfUnits us)

/-- One character of an identifier, and whether it is escaped. -/
def identifierChar (p : Char → Bool) : Scan (Char × Bool) := do
  match ← next with
  | '\\' => do
    char 'u'
    let c := Char.ofNat (← Escape.unicode)
    if p c then pure (c, true) else fail
  | c => if p c then pure (c, false) else fail

def identifierRest : Nat → Scan (List Char × Bool)
  | 0 => fail
  | n + 1 => do
    match ← peek? with
    | none => pure ([], false)
    | some c =>
      if c = '\\' || isIdentifierPart c then do
        let (d, escaped) ← identifierChar isIdentifierPart
        let (ds, more) ← identifierRest n
        pure (d :: ds, escaped || more)
      else pure ([], false)

/-- An identifier, and whether it holds an escape. -/
def identifier : Scan (String × Bool) := do
  let (c, escaped) ← identifierChar isIdentifierStart
  let (cs, more) ← fun cs => identifierRest (cs.length + 1) cs
  pure (String.ofList (c :: cs), escaped || more)

example : (stringBody '\'' "a\\u0042' c".toList).map (·.1) = some "aB" := by decide +kernel

end ApiSurface.Source
