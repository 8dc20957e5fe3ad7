/-! Tokens of a declaration file. A token knows where it starts, whether a line break stands before
it, and whether it touches the token before it: the grammar asks for no more of the space between.
-/
namespace ApiSurface.Source

inductive Lexeme
  /-- An identifier or a keyword, with its escapes resolved. -/
  | word (text : String)
  | privateName (text : String)
  /-- A string literal, by its value. -/
  | string (value : String)
  /-- A number, as it is spelled. -/
  | number (spelling : String)
  /-- A big integer, as it is spelled. -/
  | bigint (spelling : String)
  | regex
  /-- A piece of a template literal, as it is spelled; `sound` if all its escapes are. -/
  | template (chunk : String) (opens closes sound : Bool)
  | symbol (text : String)
  deriving Repr, DecidableEq

structure Token where
  lexeme : Lexeme
  /-- How many characters stand before the token. -/
  offset : Nat
  /-- A line break stands before the token, or nothing does. -/
  startsLine : Bool
  /-- Nothing stands between the token and the one before it. -/
  glued : Bool
  deriving Repr, DecidableEq

/-- Words that name nothing. -/
def reservedWords : List String := [
  "await", "break", "case", "catch", "class", "const", "continue", "debugger", "default", "delete",
  "do", "else", "enum", "export", "extends", "false", "finally", "for", "function", "if", "import",
  "in", "instanceof", "let", "new", "null", "return", "super", "switch", "this", "throw", "true",
  "try", "typeof", "var", "void", "while", "with", "yield", "implements", "interface", "package",
  "private", "protected", "public"]

/-- A word that may stand for something declared. -/
def isReference (word : String) : Bool := !reservedWords.contains word

/-- A word that may be declared. -/
def isBindable (word : String) : Bool :=
  ["await", "this"].contains word ||
    isReference word && !(["static", "eval", "arguments"].contains word)

namespace Lexeme

/-- Keywords after which an expression may end. -/
def closingWords : List String := ["this", "super", "null", "true", "false"]

/-- A slash behind this lexeme opens a regular expression. -/
def awaitsOperand : Lexeme → Bool
  | word w =>
    reservedWords.contains w && !closingWords.contains w &&
      !(["implements", "interface", "let", "package", "private", "protected", "public"].contains w)
  | template _ _ closes _ => !closes
  | symbol s => !([")", "]", "\x7d", "++", "--"].contains s)
  | _ => false

end Lexeme
end ApiSurface.Source
