/-! JSON values, with the fields of an object in the order they are written, and their two printed
forms: compact, and pretty with two spaces per level. -/
namespace ApiSurface

inductive Json
  | null
  | bool (value : Bool)
  | number (text : String)
  | string (value : String)
  | array (items : List Json)
  | object (fields : List (String × Json))
  deriving Repr, Inhabited

namespace Json

mutual

/-- How many arrays and objects are open at the deepest place of a value. -/
def depth : Json → Nat
  | array items => itemsDepth items + 1
  | object fields => fieldsDepth fields + 1
  | _ => 0

def itemsDepth : List Json → Nat
  | [] => 0
  | v :: vs => max (depth v) (itemsDepth vs)

def fieldsDepth : List (String × Json) → Nat
  | [] => 0
  | (_, v) :: vs => max (depth v) (fieldsDepth vs)

end

/-- The lowercase hexadecimal digit of a number below sixteen. -/
def hexDigit (n : Nat) : Char :=
  if n < 10 then Char.ofNat (48 + n) else Char.ofNat (87 + n)

/-- A character inside a quoted string. Only quotes, backslashes and control characters are
escaped. -/
def escapeChar (c : Char) : List Char :=
  if c = '"' then ['\\', '"']
  else if c = '\\' then ['\\', '\\']
  else if c = '\n' then ['\\', 'n']
  else if c = '\r' then ['\\', 'r']
  else if c = '\t' then ['\\', 't']
  else if c.toNat = 8 then ['\\', 'b']
  else if c.toNat = 12 then ['\\', 'f']
  else if c.toNat < 32 then ['\\', 'u', '0', '0', hexDigit (c.toNat / 16), hexDigit (c.toNat % 16)]
  else [c]

/-- A string between quotes. -/
def quote (s : String) : List Char :=
  '"' :: (s.toList.flatMap escapeChar ++ ['"'])

/-- The text of a value that holds no other value. -/
def scalar : Json → List Char
  | null => "null".toList
  | bool true => "true".toList
  | bool false => "false".toList
  | number text => text.toList
  | string s => quote s
  | array _ => []
  | object _ => []

mutual

/-- No blanks at all. -/
def compactChars : Json → List Char
  | array [] => "[]".toList
  | array (v :: vs) => '[' :: (compactChars v ++ compactItems vs)
  | object [] => ['\x7b', '\x7d']
  | object ((k, v) :: fs) => '\x7b' :: (quote k ++ ':' :: (compactChars v ++ compactFields fs))
  | v => scalar v

/-- The items after the first one, and the closing bracket. -/
def compactItems : List Json → List Char
  | [] => [']']
  | v :: vs => ',' :: (compactChars v ++ compactItems vs)

/-- The fields after the first one, and the closing brace. -/
def compactFields : List (String × Json) → List Char
  | [] => ['\x7d']
  | (k, v) :: fs => ',' :: (quote k ++ ':' :: (compactChars v ++ compactFields fs))

end

/-- The start of a line that is `n` levels deep. -/
def indent (n : Nat) : List Char := '\n' :: List.replicate (2 * n) ' '

mutual

/-- One item or field a line; an empty array or object takes no line of its own. -/
def prettyChars (n : Nat) : Json → List Char
  | array [] => "[]".toList
  | array (v :: vs) => '[' :: (indent (n + 1) ++ (prettyChars (n + 1) v ++ prettyItems n vs))
  | object [] => ['\x7b', '\x7d']
  | object ((k, v) :: fs) =>
    '\x7b' :: (indent (n + 1) ++
      (quote k ++ ':' :: ' ' :: (prettyChars (n + 1) v ++ prettyFields n fs)))
  | v => scalar v

def prettyItems (n : Nat) : List Json → List Char
  | [] => indent n ++ [']']
  | v :: vs => ',' :: (indent (n + 1) ++ (prettyChars (n + 1) v ++ prettyItems n vs))

def prettyFields (n : Nat) : List (String × Json) → List Char
  | [] => indent n ++ ['\x7d']
  | (k, v) :: fs =>
    ',' :: (indent (n + 1) ++
      (quote k ++ ':' :: ' ' :: (prettyChars (n + 1) v ++ prettyFields n fs)))

end

def compact (v : Json) : String := String.ofList (compactChars v)

def pretty (v : Json) : String := String.ofList (prettyChars 0 v)

/-- The values of all fields with a given name. -/
def fieldsNamed (name : String) (fields : List (String × Json)) : List Json :=
  (fields.filter (·.1 = name)).map (·.2)

end Json
end ApiSurface
