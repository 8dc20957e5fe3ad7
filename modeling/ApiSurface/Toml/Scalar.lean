import ApiSurface.Text.Scan

/-! The parts of TOML text that lie within one line or one string: blanks, strings, keys, numbers,
dates and times. -/
namespace ApiSurface.Toml.Reader

open Text (Scan)
open Text.Scan

def isBlank (c : Char) : Bool := c = ' ' || c = '\t'

def skipBlank : Scan Unit := do let _ ← run isBlank

/-- A character that may stand in comments and strings as it is. -/
def isPlain (c : Char) : Bool := c = '\t' || (32 ≤ c.toNat && c.toNat ≠ 127)

/-- A line feed, with or without a carriage return in front of it. -/
def newline : Scan Unit := do
  match ← next with
  | '\n' => pure ()
  | '\r' => char '\n'
  | _ => fail

/-- A comment up to the end of its line, if there is one. -/
def skipComment : Scan Unit := do
  if (← peek?) = some '#' then
    let _ ← run isPlain

/-- The end of a line: blanks, a comment, and a newline or the end of the text. -/
def lineEnd : Scan Unit := do
  skipBlank
  skipComment
  match ← peek? with
  | none => pure ()
  | some _ => newline

def skipLinesWithin : Nat → Scan Unit
  | 0 => fail
  | fuel + 1 => do
    skipBlank
    match ← peek? with
    | some '\n' | some '\r' => newline; skipLinesWithin fuel
    | some '#' => skipComment; skipLinesWithin fuel
    | _ => pure ()

/-- Blanks, newlines and comments, as many as there are. -/
def skipLines : Scan Unit := do skipLinesWithin ((← get).length + 1)

def isHexDigit (c : Char) : Bool :=
  c.isDigit || ('a' ≤ c && c ≤ 'f') || ('A' ≤ c && c ≤ 'F')

def hexDigitValue (c : Char) : Nat :=
  if c.isDigit then c.toNat - 48 else if 'a' ≤ c then c.toNat - 87 else c.toNat - 55

/-- The character with a number of so many hexadecimal digits. -/
def codePoint (count : Nat) : Scan Char := fun cs =>
  let ds := cs.take count
  let n := ds.foldl (fun n c => n * 16 + hexDigitValue c) 0
  if ds.length = count && ds.all isHexDigit && n.isValidChar then
    some (Char.ofNat n, cs.drop count)
  else none

/-- What follows a backslash in a string. -/
def escape : Scan Char := do
  match ← next with
  | 'b' => pure (Char.ofNat 8)
  | 't' => pure '\t'
  | 'n' => pure '\n'
  | 'f' => pure (Char.ofNat 12)
  | 'r' => pure '\r'
  | '"' => pure '"'
  | '\\' => pure '\\'
  | 'u' => codePoint 4
  | 'U' => codePoint 8
  | _ => fail

/-- A string on one line, up to its closing quote. -/
def basicBody : Nat → Scan (List Char)
  | 0 => fail
  | fuel + 1 => do
    match ← next with
    | '"' => pure []
    | '\\' => return (← escape) :: (← basicBody fuel)
    | c => if isPlain c then return c :: (← basicBody fuel) else fail

/-- A literal string on one line, up to its closing quote. -/
def literalBody : Scan (List Char) := do
  let cs ← run fun c => isPlain c && c ≠ '\''
  char '\''
  return cs

/-- Quotes inside or at the end of a string of several lines: three of them end it, and two more may
belong to it. -/
def quotes (quote : Char) : Scan (List Char × Bool) := fun cs =>
  let count := (cs.takeWhile (· = quote)).length
  if count < 3 then some ((List.replicate count quote, false), cs.drop count)
  else
    let kept := min (count - 3) 2
    some ((List.replicate kept quote, true), cs.drop (kept + 3))

/-- A string of several lines, up to its closing quotes. -/
def blockBody (quote : Char) : Nat → Scan (List Char)
  | 0 => fail
  | fuel + 1 => do
    match ← peek? with
    | none => fail
    | some c =>
      if c = quote then
        let (kept, closed) ← quotes quote
        if closed then pure kept else return kept ++ (← blockBody quote fuel)
      else if c = '\n' || c = '\r' then
        newline
        return '\n' :: (← blockBody quote fuel)
      else if c = '\\' && quote = '"' then
        let _ ← next
        match ← peek? with
        | some d =>
          if isBlank d || d = '\n' || d = '\r' then
            skipBlank
            newline
            let _ ← run fun c => isBlank c || c = '\n'
            blockBody quote fuel
          else return (← escape) :: (← blockBody quote fuel)
        | none => fail
      else if isPlain c then
        let _ ← next
        return c :: (← blockBody quote fuel)
      else fail

/-- A string in any of the four forms. A newline right behind three quotes does not count. -/
def string : Scan String := do
  let quote ← next
  let fuel := (← get).length + 1
  match ← attempt (chars [quote, quote]) with
  | some _ =>
    let _ ← attempt newline
    return String.ofList (← blockBody quote fuel)
  | none =>
    if quote = '"' then return String.ofList (← basicBody fuel)
    else return String.ofList (← literalBody)

def isBareKeyChar (c : Char) : Bool := c.isAlphanum || c = '_' || c = '-'

/-- One part of a key: bare, or a string on one line. -/
def keyPart : Scan String := do
  match ← peek? with
  | some '"' =>
    let _ ← next
    return String.ofList (← basicBody ((← get).length + 1))
  | some '\'' =>
    let _ ← next
    return String.ofList (← literalBody)
  | _ => return String.ofList (← someRun isBareKeyChar)

/-- The further parts of a key, each behind a point. -/
def keyRest : Nat → Scan (List String)
  | 0 => fail
  | fuel + 1 => do
    skipBlank
    match ← peek? with
    | some '.' =>
      let _ ← next
      skipBlank
      return (← keyPart) :: (← keyRest fuel)
    | _ => pure []

/-- How deep keys and values may nest. -/
def maxDepth : Nat := 80

/-- A key of one part or more, with the blanks around it. -/
def key : Scan (List String) := do
  skipBlank
  let parts := (← keyPart) :: (← keyRest ((← get).length + 1))
  if parts.length < maxDepth then pure parts else fail

/-! Numbers. -/

/-- Digits of a class, single underscores between them. -/
def digitGroups (p : Char → Bool) : Nat → Scan (List Char)
  | 0 => fail
  | fuel + 1 => do
    let ds ← someRun p
    match ← peek? with
    | some '_' =>
      let _ ← next
      return ds ++ (← digitGroups p fuel)
    | _ => pure ds

def groupsOf (p : Char → Bool) : Scan (List Char) := do digitGroups p ((← get).length + 1)

def valueIn (base : Nat) (ds : List Char) : Nat :=
  ds.foldl (fun n c => n * base + hexDigitValue c) 0

/-- An integer in another base, behind its mark. -/
def basedInteger (base : Nat) (p : Char → Bool) : Scan Unit := do
  let ds ← groupsOf p
  if valueIn base ds < Nat.pow 2 63 then pure () else fail

/-- Whether a minus sign was read. -/
def sign : Scan Bool := do
  match ← peek? with
  | some '-' => let _ ← next; pure true
  | some '+' => let _ ← next; pure false
  | _ => pure false

/-- Decimal digits without a needless zero in front. -/
def decimalDigits : Scan (List Char) := do
  let ds ← groupsOf Char.isDigit
  if ds.head? = some '0' && 1 < ds.length then fail else pure ds

/-- The letter of a mark such as `0x`, when there is one. -/
def baseMark : Scan (Option Char) := fun cs =>
  match cs with
  | '0' :: c :: rest =>
    if c = 'x' || c = 'o' || c = 'b' then some (some c, rest) else some (none, cs)
  | _ => some (none, cs)

/-- An integer of 64 bits. -/
def integer : Scan Unit := do
  match ← baseMark with
  | some 'x' => basedInteger 16 isHexDigit
  | some 'o' => basedInteger 8 fun c => '0' ≤ c && c ≤ '7'
  | some _ => basedInteger 2 fun c => c = '0' || c = '1'
  | none =>
    let negative ← sign
    let n := valueIn 10 (← decimalDigits)
    if n < Nat.pow 2 63 || (negative && n = Nat.pow 2 63) then pure () else fail

/-- The number with these digits and this power of ten is beyond every double-precision value. -/
def isInfinite (ds : List Char) (power : Int) : Bool :=
  let n := valueIn 10 ds
  let bound := Nat.pow 2 1024 - Nat.pow 2 970
  if n = 0 then false
  else if 0 ≤ power then 400 < power || bound ≤ n * Nat.pow 10 power.toNat
  else (-power).toNat ≤ ds.length && bound * Nat.pow 10 (-power).toNat ≤ n

/-- The digits behind a point, when there is one. -/
def fractionPart : Scan (Option (List Char)) := do
  match ← peek? with
  | some '.' =>
    let _ ← next
    return some (← groupsOf Char.isDigit)
  | _ => pure none

/-- The value of an exponent, when there is one. -/
def exponentPart : Scan (Option Int) := do
  match ← peek? with
  | some 'e' | some 'E' =>
    let _ ← next
    let negative ← sign
    let n := valueIn 10 (← groupsOf Char.isDigit)
    return some (if negative then -(n : Int) else n)
  | _ => pure none

/-- A float: digits with a fraction, an exponent or both, or the word for infinity or for no
number. -/
def float : Scan Unit := do
  let negative ← sign
  match ← peek? with
  | some 'i' => chars "inf".toList
  | some 'n' => chars "nan".toList
  | _ =>
    let whole ← decimalDigits
    let fraction ← fractionPart
    match fraction, ← exponentPart with
    | none, none => fail
    | _, power =>
      let fraction := fraction.getD []
      let power := power.getD 0 - fraction.length
      if isInfinite (whole ++ fraction) power && !negative then fail

/-! Dates and times. -/

/-- A number of so many digits, between two bounds. -/
def fixedNumber (count low high : Nat) : Scan Nat := fun cs =>
  let ds := cs.take count
  let n := valueIn 10 ds
  if ds.length = count && ds.all Char.isDigit && low ≤ n && n ≤ high then some (n, cs.drop count)
  else none

def daysOfMonth (year month : Nat) : Nat :=
  if month = 2 then
    if year % 4 = 0 && (year % 100 ≠ 0 || year % 400 = 0) then 29 else 28
  else if month = 4 || month = 6 || month = 9 || month = 11 then 30
  else 31

def date : Scan Unit := do
  let year ← fixedNumber 4 0 9999
  char '-'
  let month ← fixedNumber 2 1 12
  char '-'
  let _ ← fixedNumber 2 1 (daysOfMonth year month)

def time : Scan Unit := do
  let _ ← fixedNumber 2 0 23
  char ':'
  let _ ← fixedNumber 2 0 59
  char ':'
  let _ ← fixedNumber 2 0 60
  if (← peek?) = some '.' then
    let _ ← next
    let _ ← someRun Char.isDigit

/-- The distance from universal time. -/
def offset : Scan Unit := do
  match ← next with
  | 'Z' | 'z' => pure ()
  | '+' | '-' =>
    let _ ← fixedNumber 2 0 23
    char ':'
    let _ ← fixedNumber 2 0 59
  | _ => fail

/-- A date, a time, or a date and a time with or without an offset. -/
def dateTime : Scan Unit := do
  match ← attempt date with
  | none => time
  | some _ =>
    let _ ← attempt do
      match ← next with
      | 'T' | 't' | ' ' => time
      | _ => fail
      attempt offset

end ApiSurface.Toml.Reader
