import ApiSurface.Source.Classes
import ApiSurface.Source.Escape

/-! The grammar of declarations. Every rule but that of variables starts behind the words that tell
the sort of declaration. -/
namespace ApiSurface.Source
open Parse

namespace Grammar

/-! Enumerations. -/

/-- A name in brackets: a string, or a template without holes. -/
def bracketedName : Parse String := do
  symbol "["
  let name ← next
  symbol "]"
  match name with
  | .string s => pure s
  | .template spelling true true true => fun ts => (templateValue? spelling).map (·, ts)
  | _ => refuse

def enumMember (g : Grammar) : Parse String := do
  let name ←
    if ← sees Ahead.anyWord then anyWord
    else if ← sees Ahead.string then string
    else bracketedName
  if ← takesSymbol "=" then
    let _ ← g.value false
  pure name

def enumRest (g : Grammar) : Parse Item := do
  let name ← boundName
  symbol "\x7b"
  pure (.enumeration name (← commaList "\x7d" g.enumMember))

/-! Functions, aliases and variables. -/

/-- A function behind its word. Only a default export has no name. -/
def functionRest (g : Grammar) (nameless : Bool) : Parse Item := do
  let _ ← takesSymbol "*"
  let name ← given Ahead.anyWord boundName
  require (nameless || name.isSome)
  let _ ← g.typeParameters ["const"]
  let ps ← g.parameters true
  let _ ← g.resultAnnotation
  noBody
  pure (.function name ps)

def aliasRest (g : Grammar) : Parse Item := do
  let name ← boundName
  let _ ← g.typeParameters ["in", "out"]
  symbol "="
  let type ← g.type true
  endStatement
  pure (.typeAlias name type)

/-- A variable with its type and value. Only the type of a plain name may be certain. -/
def variableDeclaration (g : Grammar) (allowIn : Bool) : Parse Variable := do
  let b ← g.binding false
  if ← sees (fun ts => b matches .name _ && Ahead.symbol "!" ts) then symbol "!"
  let type ← g.annotation true
  let value ← given (Ahead.symbol "=") do
    symbol "="
    g.value allowIn
  match b with
  | .name n => pure (.named n type value)
  | .array o | .object o => pure (.pattern o)

/-- Variables behind their word. -/
def variablesRest (g : Grammar) : Parse Item := do
  let vs ← separated "," (g.variableDeclaration true)
  endStatement
  pure (.variableList vs)

/-- Resources behind the word `using`; each has a name and a value. -/
def usingRest (g : Grammar) (start : Nat) : Parse Item := do
  let _ ← separated "," do
    let _ ← boundName
    let _ ← g.annotation true
    symbol "="
    g.value true
  endStatement
  pure (.using start)

def classItem (g : Grammar) (isAbstract nameless : Bool) : Parse Item := do
  let c ← g.classRest isAbstract
  require (nameless || c.name.isSome)
  pure (.classType c.name c.superclass c.members)

/-! Namespaces. -/

/-- Items in braces. -/
def itemBlock (g : Grammar) : Parse Unit := do
  symbol "\x7b"
  let _ ← during (Ahead.symbol "\x7d").not g.item
  symbol "\x7d"

def namespaceRest (g : Grammar) (start : Nat) : Parse Item := do
  let _ ← boundName
  let _ ← during (Ahead.symbol ".") do
    symbol "."
    anyWord
  g.itemBlock
  pure (.namespaceBlock start)

/-- A module behind its word; one named by a string may have no items. -/
def moduleRest (g : Grammar) (start : Nat) : Parse Item := do
  if ← takes Ahead.string then
    if ← sees (Ahead.symbol "\x7b") then g.itemBlock else endStatement
    pure (.namespaceBlock start)
  else g.namespaceRest start

def globalRest (g : Grammar) (start : Nat) : Parse Item := do
  g.itemBlock
  pure (.augmentation start)

/-! Declarations. -/

/-- A declaration that opens with a word for its sort. Behind `declare` the word is sure to mean it;
elsewhere it may be a name. -/
def sortedDeclaration (g : Grammar) (start : Nat) (sure : Bool) : Parse (Option Item) := do
  let named (w : String) : Ahead := fun ts =>
    Ahead.word w ts && (sure || Ahead.reference ts.tail)
  let near (w : String) (p : Ahead) : Ahead := fun ts =>
    Ahead.word w ts && (sure || Ahead.sameLine ts.tail) && p ts.tail
  if ← takes (near "abstract" (Ahead.word "class")) then
    word "class"
    some <$> g.classItem true false
  else if ← takes (named "enum") then some <$> g.enumRest
  else if ← takes (named "interface") then some <$> g.interfaceRest
  else if ← takes (named "namespace") then some <$> g.namespaceRest start
  else if ← takes (near "module" (Ahead.string.or Ahead.reference)) then some <$> g.moduleRest start
  else if ← takes (near "type" Ahead.reference) then some <$> g.aliasRest
  else if ← takes ((Ahead.word "global").before (Ahead.symbol "\x7b")) then
    some <$> g.globalRest start
  else pure none

/-- A declaration that opens with a keyword. -/
def plainDeclaration (g : Grammar) : Parse (Option Item) := do
  if ← takesWord "class" then some <$> g.classItem false false
  else if ← takesWord "function" then some <$> g.functionRest false
  else if ← takes ((Ahead.word "const").before (Ahead.word "enum")) then
    word "enum"
    some <$> g.enumRest
  else if ← takes (Ahead.wordIn ["const", "let", "var"]) then some <$> g.variablesRest
  else pure none

/-- A declaration, if one comes next. The word `declare` adds nothing, since all is ambient. -/
def declaration (g : Grammar) : Parse (Option Item) := do
  let start ← offset
  if ← takes ((Ahead.word "declare").before Ahead.anyWord) then
    match ← g.plainDeclaration with
    | some i => pure (some i)
    | none => do
      match ← g.sortedDeclaration start true with
      | some i => pure (some i)
      | none => refuse
  else if ← takes (Ahead.words "async" "function") then
    word "function"
    some <$> g.functionRest false
  else
    match ← g.plainDeclaration with
    | some i => pure (some i)
    | none => g.sortedDeclaration start false

end Grammar
end ApiSurface.Source
