import ApiSurface.Refusal
import ApiSurface.Source.Types

/-! The text of a type. It depends on the syntax of the type alone, not on how it is laid out:
single blanks stand where the grammar needs or likes one, strings are quoted twice, and members are
parted by commas. Type parameters are left out, and so is the mark of an optional parameter. -/
namespace ApiSurface
open Source

/-- The type of what has none written. -/
def voidText : String := "void"

def commas (ts : List String) : String := ", ".intercalate ts

/-- Text in braces. -/
def braced (t : String) : String := "\x7b" ++ t ++ "\x7d"

/-- Text between quotes, as it is. -/
def quoted (t : String) : String := "\"" ++ t ++ "\""

def dotted (path : List String) : String := ".".intercalate path

namespace Source

/-- The name of a member by its key. A chain of names keeps its brackets. -/
def Expression.keyText : Expression → Except Refusal String
  | name n _ => .ok n
  | string v _ => .ok ("'" ++ v ++ "'")
  | number s _ => .ok s
  | member e p =>
    match (member e p).path? with
    | some path => .ok ("[" ++ dotted path ++ "]")
    | none => refused .computedMemberKey e.offset
  | e => refused .computedKey e.offset

def Key.text (k : Key) : Except Refusal String := k.value.keyText

/-- A mark in front of a modifier. -/
def markText (modifier : String) : Option Mark → String
  | none => ""
  | some .plain => modifier
  | some .plus => "+" ++ modifier
  | some .minus => "-" ++ modifier

def argumentsText : List String → String
  | [] => ""
  | ts => "<" ++ commas ts ++ ">"

/-- A module and the path of something in it. -/
def importedText (source : String) (path : List String) : String :=
  "import(" ++ quoted source ++ ")" ++ String.join (path.map ("." ++ ·))

/-- A parameter by its name and the text of its type. -/
def parameterText (p : String × String) : String := p.1 ++ ": " ++ p.2

mutual

def TypeTerm.text : TypeTerm → Except Refusal String
  | .keyword w => .ok w
  | .this => .ok "this"
  | .string v => .ok (quoted v)
  | .number s => .ok s
  | .bigint s => .ok s
  | .boolean b => .ok (if b then "true" else "false")
  | .template first holes => do return "\x60" ++ first ++ (← holesText holes) ++ "\x60"
  | .reference path args => do return dotted path ++ argumentsText (← typeTexts args)
  | .query path args => do return "typeof " ++ dotted path ++ argumentsText (← typeTexts args)
  | .queryImport source path own args => do
    let ownTexts ← typeTexts own
    return "typeof " ++ importedText source path ++ argumentsText ownTexts ++
      argumentsText (← typeTexts args)
  | .imported source path args => do
    return importedText source path ++ argumentsText (← typeTexts args)
  | .function _ ps r => do
    let params := commas (← parameterTexts ps)
    return "(" ++ params ++ ") => " ++ (← r.text)
  | .constructor isAbstract _ ps r => do
    let params := commas (← parameterTexts ps)
    return (if isAbstract then "abstract " else "") ++ "new (" ++ params ++ ") => " ++ (← r.text)
  | .object [] => .ok (braced "")
  | .object (m :: ms) => do
    let first ← m.text
    return braced (" " ++ commas (first :: (← signaturesText ms)) ++ " ")
  | .array t => do return (← t.text) ++ "[]"
  | .tuple es => do return "[" ++ commas (← elementsText es) ++ "]"
  | .optional t => do return (← t.text) ++ "?"
  | .rest t => do return "..." ++ (← t.text)
  | .union ts => do return " | ".intercalate (← typeTexts ts)
  | .intersection ts => do return " & ".intercalate (← typeTexts ts)
  | .conditional checked bound yes no => do
    let c ← checked.text
    let b ← bound.text
    let y ← yes.text
    return c ++ " extends " ++ b ++ " ? " ++ y ++ " : " ++ (← no.text)
  | .infer name bound => do return "infer " ++ name ++ (← behindText " extends " bound)
  | .parenthesized t => do return "(" ++ (← t.text) ++ ")"
  | .operator o t => do return o.word ++ " " ++ (← t.text)
  | .indexed t i => do
    let object ← t.text
    return object ++ "[" ++ (← i.text) ++ "]"
  | .mapped readonly name keys renamed isOptional value => do
    let k ← keys.text
    let n ← behindText " as " renamed
    let v ← behindText ": " value
    return braced (" " ++ markText "readonly " readonly ++ "[" ++ name ++ " in " ++ k ++ n ++ "]" ++
      markText "?" isOptional ++ v ++ " ")
  | .predicate asserts subject t => do
    return (if asserts then "asserts " else "") ++ subject ++ (← behindText " is " t)

/-- A type behind a word, if there is one. -/
def behindText (word : String) : Option TypeTerm → Except Refusal String
  | none => .ok ""
  | some t => do return word ++ (← t.text)

/-- A type, or the one that stands for none. -/
def annotationText : Option TypeTerm → Except Refusal String
  | none => .ok voidText
  | some t => t.text

def typeTexts : List TypeTerm → Except Refusal (List String)
  | [] => .ok []
  | t :: ts => do
    let first ← t.text
    return first :: (← typeTexts ts)

def holesText : List Hole → Except Refusal String
  | [] => .ok ""
  | .mk t chunk :: hs => do
    let first ← t.text
    return "$" ++ braced first ++ chunk ++ (← holesText hs)

/-- The name of a parameter and the text of its type. -/
def Parameter.parts : Parameter → Except Refusal (String × String)
  | .named n _ t => do return (n, ← annotationText t)
  | .rest n t => do return ("..." ++ n, ← annotationText t)
  | .restPattern o => refused .restPattern o
  | .arrayPattern o => refused .arrayPattern o
  | .objectPattern o => refused .objectPattern o

def parameterTexts : List Parameter → Except Refusal (List String)
  | [] => .ok []
  | p :: ps => do
    let parts ← p.parts
    return parameterText parts :: (← parameterTexts ps)

def Signature.text : Signature → Except Refusal String
  | .property readonly key isOptional t => do
    let k ← key.text
    return (if readonly then "readonly " else "") ++ k ++ (if isOptional then "?" else "") ++
      ": " ++ (← annotationText t)
  | .method key isOptional _ ps r => do
    let k ← key.text
    let params := commas (← parameterTexts ps)
    return k ++ (if isOptional then "?" else "") ++ "(" ++ params ++ "): " ++ (← annotationText r)
  | .getter key t => do
    let k ← key.text
    return "get " ++ k ++ "(): " ++ (← annotationText t)
  | .setter key p => do
    let parts ← p.parts
    let k ← key.text
    return "set " ++ k ++ "(" ++ parameterText parts ++ ")"
  | .call _ ps r _ => do
    let params := commas (← parameterTexts ps)
    return "(" ++ params ++ "): " ++ (← annotationText r)
  | .construct _ ps r _ => do
    let params := commas (← parameterTexts ps)
    return "new (" ++ params ++ "): " ++ (← annotationText r)
  | .index readonly name keys t _ => do
    let k ← keys.text
    return (if readonly then "readonly " else "") ++ "[" ++ parameterText (name, k) ++ "]: " ++
      (← annotationText t)

def signaturesText : List Signature → Except Refusal (List String)
  | [] => .ok []
  | m :: ms => do
    let first ← m.text
    return first :: (← signaturesText ms)

def TupleElement.text : TupleElement → Except Refusal String
  | .plain t => t.text
  | .labelled takesRest label _ t => do
    return (if takesRest then "..." else "") ++ parameterText (label, ← t.text)

def elementsText : List TupleElement → Except Refusal (List String)
  | [] => .ok []
  | e :: es => do
    let first ← e.text
    return first :: (← elementsText es)

end

end Source
end ApiSurface
