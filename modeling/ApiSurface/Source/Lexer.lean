import ApiSurface.Source.Escape
import ApiSurface.Source.Numeral

/-! From text to tokens. A slash opens a regular expression where an operand is awaited, and a
closing brace goes on with a template where the brace it closes opened a hole. -/
namespace ApiSurface.Source.Lexer
open Text Text.Scan

/-- Symbols, longer ones first. Angle brackets always stand alone. -/
def symbols : List String := [
  "...", "??=", "||=", "&&=", "===", "!==", "**=", "??", "||", "&&", "==", "!=", "=>", "++", "--",
  "+=", "-=", "*=", "/=", "%=", "&=", "|=", "^=", "**", "\x7b", "\x7d", "(", ")", "[", "]", ";",
  ",", "<", ">", "?", ":", ".", "=", "!", "+", "-", "*", "/", "%", "&", "|", "^", "~", "@"]

/-- An optional chain; no digit may follow, for then a number does. -/
def opensChain : List Char → Bool
  | '?' :: '.' :: c :: _ => !c.isDigit
  | ['?', '.'] => true
  | _ => false

def symbol : Scan Lexeme := fun cs =>
  if opensChain cs then some (.symbol "?.", cs.drop 2)
  else do
    let s ← symbols.find? fun s => s.toList.isPrefixOf cs
    pure (.symbol s, cs.drop s.length)

/-- The rest behind the body of a regular expression. -/
def regexBody : Bool → List Char → Option (List Char)
  | _, [] => none
  | inClass, '\\' :: c :: cs => if isLineBreak c then none else regexBody inClass cs
  | inClass, c :: cs =>
    if isLineBreak c then none
    else if c = '/' && !inClass then some cs
    else regexBody (c = '[' || inClass && c != ']') cs

/-- A regular expression behind its first slash. No flag comes twice. -/
def regex : Scan Lexeme := fun cs => do
  let rest ← regexBody false cs
  let flags := rest.takeWhile isIdentifierPart
  guard (flags.all "dgimsuvy".toList.contains && flags.eraseDups.length = flags.length)
  pure (.regex, rest.dropWhile isIdentifierPart)

/-- A piece of a template: its spelling, whether its escapes are sound, and whether it is the last.
-/
def templateChunk : List Char → Option ((List Char × Bool × Bool) × List Char)
  | [] => none
  | '\x60' :: cs => some (([], true, true), cs)
  | '$' :: '\x7b' :: cs => some (([], true, false), cs)
  | '\\' :: c :: cs => do
    let ((raw, sound, last), rest) ← templateChunk cs
    pure (('\\' :: c :: raw, sound && (Escape.unit (c :: cs)).isSome, last), rest)
  | c :: cs => do
    let ((raw, sound, last), rest) ← templateChunk cs
    pure ((c :: raw, sound, last), rest)

def template (opens : Bool) : Scan Lexeme := do
  let (raw, sound, last) ← templateChunk
  pure (.template (String.ofList raw) opens last sound)

/-- A keyword may not be spelled with escapes. -/
def word : Scan Lexeme := do
  let (text, escaped) ← identifier
  if escaped && reservedWords.contains text then fail else pure (.word text)

def startsNumber : List Char → Bool
  | '.' :: c :: _ => c.isDigit
  | c :: _ => c.isDigit
  | [] => false

/-- One lexeme, given whether an operand is awaited and whether a hole of a template is open. -/
def lexeme (operand hole : Bool) : Scan Lexeme := fun cs =>
  match cs with
  | [] => none
  | c :: rest =>
    if c = '"' || c = '\'' then (Lexeme.string <$> stringBody c) rest
    else if c = '\x60' then template true rest
    else if c = '\x7d' && hole then template false rest
    else if c = '#' then ((fun i => .privateName i.1) <$> identifier) rest
    else if c = '/' && operand then regex rest
    else if startsNumber cs then Numeral.scan cs
    else if isIdentifierStart c || c = '\\' then word cs
    else symbol cs

/-- What is open inside a text: for every brace, whether it opened a hole of a template. -/
def nest (braces : List Bool) : Lexeme → List Bool
  | .symbol "\x7b" => false :: braces
  | .symbol "\x7d" => braces.tail
  | .template _ true false _ => true :: braces
  | .template _ false true _ => braces.tail
  | _ => braces

/-- Comments of markup pages are refused. -/
def isMarkupComment (startsLine : Bool) (cs : List Char) : Bool :=
  "<!--".toList.isPrefixOf cs || startsLine && "-->".toList.isPrefixOf cs

/-- The tokens of the end of a text of the given size. -/
def tokensFrom (size : Nat) : Nat → Option Lexeme → List Bool → List Char → Option (List Token)
  | 0, _, _, _ => none
  | n + 1, previous, braces, cs => do
    let (broken, rest) ← Gap.skip .space previous.isNone cs
    if isMarkupComment broken rest then none
    else if rest.isEmpty then pure []
    else do
      let (l, rest') ← lexeme ((previous.map Lexeme.awaitsOperand).getD true)
        (braces.head?.getD false) rest
      let tokens ← tokensFrom size n (some l) (nest braces l) rest'
      let offset := size - rest.length
      pure (⟨l, offset, broken, previous.isSome && rest.length = cs.length⟩ :: tokens)

/-- A first line that names an interpreter is no part of the program. -/
def skipInterpreter : List Char → List Char
  | '#' :: '!' :: cs => cs.dropWhile fun c => !isLineBreak c
  | cs => cs

/-- The tokens of a text, unless some part of it is none. -/
def tokens? (text : List Char) : Option (List Token) :=
  tokensFrom text.length (text.length + 1) none [] (skipInterpreter text)

end ApiSurface.Source.Lexer
