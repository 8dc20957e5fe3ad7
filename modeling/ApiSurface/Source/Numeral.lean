import ApiSurface.Source.Token
import ApiSurface.Text.Identifier
import ApiSurface.Text.Scan

/-! Numbers as they are spelled. Underscores may part digits, a leading zero opens no decimal, and
no letter or digit may touch a number. -/
namespace ApiSurface.Source.Numeral
open Text Text.Scan

/-- Every underscore stands between two digits. -/
def wellParted : List Char → Bool
  | [] => false
  | [c] => c != '_'
  | '_' :: _ => false
  | _ :: '_' :: '_' :: _ => false
  | _ :: '_' :: cs => wellParted cs
  | _ :: c :: cs => wellParted (c :: cs)

def digits (p : Char → Bool) : Scan (List Char) := do
  let ds ← run fun c => p c || c = '_'
  if wellParted ds then pure ds else fail

/-- The digits of a base that a letter announces. -/
def based? : Char → Option (Char → Bool)
  | 'x' | 'X' => some fun c => c.isDigit || ('a' ≤ c && c ≤ 'f') || ('A' ≤ c && c ≤ 'F')
  | 'o' | 'O' => some fun c => '0' ≤ c && c ≤ '7'
  | 'b' | 'B' => some fun c => c = '0' || c = '1'
  | _ => none

def isExponentMark (c : Char) : Bool := c = 'e' || c = 'E'
def isSign (c : Char) : Bool := c = '+' || c = '-'

/-- A character of a class, if it comes next. -/
def maybe (p : Char → Bool) : Scan (List Char) := do
  match ← peek? with
  | some c => if p c then (fun d => [d]) <$> next else pure []
  | none => pure []

/-- The exponent, if there is one. -/
def exponent : Scan (List Char) := do
  match ← maybe isExponentMark with
  | [] => pure []
  | mark => do
    let sign ← maybe isSign
    let ds ← digits Char.isDigit
    pure (mark ++ sign ++ ds)

/-- Digits behind a point; there may be none. -/
def fraction : Scan (List Char) := do
  match ← peek? with
  | some c => if c.isDigit || c = '_' then digits Char.isDigit else pure []
  | none => pure []

/-- A spelled number, made a big integer by the letter behind it. -/
def integer (spelling : List Char) : Scan Lexeme := do
  match ← maybe (· = 'n') with
  | [] => pure (.number (String.ofList spelling))
  | mark => pure (.bigint (String.ofList (spelling ++ mark)))

def decimal : Scan Lexeme := do
  match ← maybe (· = '.') with
  | [] => do
    let whole ← digits Char.isDigit
    if 1 < whole.length && whole.head? = some '0' then fail
    match ← maybe (· = '.') with
    | [] => do
      match ← exponent with
      | [] => integer whole
      | e => pure (.number (String.ofList (whole ++ e)))
    | point => do
      let part ← fraction
      let e ← exponent
      pure (.number (String.ofList (whole ++ point ++ part ++ e)))
  | point => do
    let part ← digits Char.isDigit
    let e ← exponent
    pure (.number (String.ofList (point ++ part ++ e)))

def literal : Scan Lexeme := fun cs =>
  match cs with
  | '0' :: c :: rest =>
    match based? c with
    | some p => (digits p >>= fun ds => integer ('0' :: c :: ds)) rest
    | none => decimal cs
  | _ => decimal cs

/-- A number that nothing touches. -/
def scan : Scan Lexeme := do
  let l ← literal
  match ← peek? with
  | some c => if isIdentifierPart c || c = '\\' then fail else pure l
  | none => pure l

example : (scan "1_0.5e-3)".toList).map (·.1) = some (.number "1_0.5e-3") := by decide +kernel
example : scan "08".toList = none := by decide +kernel

end ApiSurface.Source.Numeral
