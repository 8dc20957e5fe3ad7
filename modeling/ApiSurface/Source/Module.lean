import ApiSurface.Source.Lexer
import ApiSurface.Source.Statements

/-! Whole modules: imports, exports, and the grammar with all its rules. -/
namespace ApiSurface.Source
open Parse

/-- A name in a list of imports or exports: a word, or a string that is none. -/
inductive ListedName
  | word (text : String)
  | string (value : String)
  deriving Repr, DecidableEq

namespace ListedName

/-- The name may be declared in a module. -/
def isLocal : ListedName → Bool
  | word w => isBindable w
  | string _ => false

/-- The name may be declared in a module and used there. -/
def isUsable : ListedName → Bool
  | word w => isReference w
  | string _ => false

end ListedName

/-- A name in a list, by what it is called outside and inside of the module. -/
structure Listing where
  isType : Bool
  first : ListedName
  second : Option ListedName
  deriving Repr, DecidableEq

/-- Reads the names that stand between two commas. The words `type` and `as` may be names
themselves. -/
def Listing.ofNames? : List ListedName → Option Listing
  | [a] => some ⟨false, a, none⟩
  | [a, .word "as", b] => some ⟨false, a, some b⟩
  | [.word "type", a] => some ⟨true, a, none⟩
  | [.word "type", a, .word "as", b] => some ⟨true, a, some b⟩
  | _ => none

namespace Grammar

def listedName : Parse ListedName := do
  match ← next with
  | .word w => pure (.word w)
  | .string s => pure (.string s)
  | _ => refuse

def listing : Parse Listing := do
  let names ← during (Ahead.anyWord.or Ahead.string) listedName
  fun ts => (Listing.ofNames? names).map (·, ts)

def listings : Parse (List Listing) := do
  symbol "\x7b"
  commaList "\x7d" listing

/-- The attributes of a module, if there are any. -/
def attributesRest : Parse Unit := do
  if ← takes ((Ahead.word "with").or ((Ahead.word "assert").and Ahead.sameLine)) then
    importAttributes

/-- The module that names come from, up to the end of the statement. -/
def source : Parse Unit := do
  word "from"
  let _ ← string
  attributesRest
  endStatement

/-! Imports. -/

/-- The module or the member that a name stands for. -/
def importedValue : Parse Unit := do
  if ← takes ((Ahead.word "require").before (Ahead.symbol "(")) then
    symbol "("
    let _ ← string
    symbol ")"
  else
    let _ ← dotted isReference (fun _ => true)
  endStatement

/-- A name for a module or for a member of a namespace. -/
def importEquals : Parse Unit := do
  let _ ← boundName
  symbol "="
  importedValue

/-- All of a module, under one name. -/
def importAll : Parse Unit := do
  symbol "*"
  word "as"
  let _ ← boundName

/-- Some names of a module. -/
def importSome (typesOnly : Bool) : Parse Unit := do
  require ((← listings).all fun p =>
    (p.second.getD p.first).isLocal && !(typesOnly && p.isType))

def importNames (typesOnly : Bool) : Parse Unit := do
  if ← sees (Ahead.symbol "*") then importAll else importSome typesOnly

/-- The names that are imported, and where they come from. -/
def importClause (typesOnly : Bool) : Parse Unit := do
  if ← sees Ahead.anyWord then
    let _ ← boundName
    if ← takesSymbol "," then importNames typesOnly
  else importNames typesOnly
  source

/-- The word before `from` or a name is a modifier and no name itself. -/
def importModifier (w : String) : Ahead := fun ts =>
  Ahead.word w ts &&
    (Ahead.symbolIn ["\x7b", "*"] ts.tail ||
      Ahead.anyWord ts.tail && !(Ahead.word "from" ts.tail && !Ahead.word "from" ts.tail.tail &&
        !Ahead.symbol "=" ts.tail.tail && !Ahead.symbol "," ts.tail.tail))

def importRest : Parse Unit := do
  if ← takes Ahead.string then
    attributesRest
    endStatement
  else
    let typesOnly ← takes (importModifier "type")
    if ← sees (Ahead.anyWord.before (Ahead.symbol "=")) then importEquals
    else if ← takes (fun ts => !typesOnly && (Ahead.word "defer").before (Ahead.symbol "*") ts) then
      importAll
      source
    else
      let _ ← takes (fun ts => !typesOnly && (importModifier "source").before Ahead.anyWord ts)
      importClause typesOnly

/-! Exports. -/

/-- Some names of this module, or of another. -/
def exportSome (typesOnly : Bool) : Parse Unit := do
  let ps ← listings
  require (ps.all fun p => !(typesOnly && p.isType))
  if ← sees (Ahead.word "from") then source
  else
    require (ps.all (·.first.isUsable))
    endStatement

/-- All names of another module. -/
def exportAll : Parse Unit := do
  symbol "*"
  if ← takesWord "as" then
    let _ ← listedName
  source

def exportNames (typesOnly : Bool) : Parse Unit := do
  if ← sees (Ahead.symbol "*") then exportAll else exportSome typesOnly

/-- What a module exports by default, behind the word. -/
def exportDefault (g : Grammar) : Parse Item := do
  if ← g.decorators then
    let isAbstract ← takesWord "abstract"
    word "class"
    g.classItem isAbstract true
  else if ← takes (Ahead.words "abstract" "class") then
    word "class"
    g.classItem true true
  else if ← takesWord "class" then g.classItem false true
  else if ← takes (Ahead.words "async" "function") then
    word "function"
    g.functionRest true
  else if ← takesWord "function" then g.functionRest true
  else if ← takes ((Ahead.word "interface").before Ahead.reference) then g.interfaceRest
  else
    let _ ← g.value true
    endStatement
    pure .silent

/-- An export behind its word. -/
def exportRest (g : Grammar) : Parse Item := do
  if ← takesWord "default" then g.exportDefault
  else if ← sees (Ahead.symbolIn ["\x7b", "*"]) then
    exportNames false
    pure .silent
  else if ← takes ((Ahead.word "type").before (Ahead.symbolIn ["\x7b", "*"])) then
    exportNames true
    pure .silent
  else if ← takesWord "import" then
    let _ ← takes (importModifier "type")
    importEquals
    pure .silent
  else if ← takesSymbol "=" then
    let _ ← g.sequence true
    endStatement
    pure .silent
  else if ← takesWord "as" then
    word "namespace"
    let _ ← boundName
    endStatement
    pure .silent
  else if ← g.decorators then g.decoratedClass
  else
    match ← g.declaration with
    | some i => pure i
    | none => refuse

/-! Items. -/

def importsModule : Ahead := fun ts =>
  Ahead.word "import" ts && !Ahead.symbolIn ["(", "."] ts.tail

/-- Decorators in front of an exported class. -/
def decoratedExport (g : Grammar) : Parse Unit := do
  require (← g.decorators)
  require (← sees (Ahead.word "export"))

def itemRule (g : Grammar) : Parse Item := do
  let decorated ← attempt g.decoratedExport
  if ← takes importsModule then
    importRest
    pure .silent
  else if ← takesWord "export" then
    let i ← g.exportRest
    require (decorated.isNone || i matches .classType ..)
    pure i
  else g.statementRule .top

end Grammar

/-- All rules, for nesting up to some depth. -/
def grammar : Nat → Grammar
  | 0 => .empty
  | n + 1 => {
      type := fun c ts => ((grammar n).nested ts).typeRule c ts
      typeOperand := fun c ts => ((grammar n).nested ts).typeOperandRule c ts
      assignment := fun i ts => ((grammar n).nested ts).assignmentRule i ts
      unary := fun ts => ((grammar n).nested ts).unaryRule ts
      leftHand := fun ts => ((grammar n).nested ts).leftHandRule ts
      binding := fun d ts => ((grammar n).nested ts).bindingRule d ts
      classRest := fun a ts => ((grammar n).nested ts).classRestRule a ts
      statement := fun f ts => ((grammar n).governed ts).statementRule f ts
      item := fun ts => ((grammar n).governed ts).itemRule ts }

/-- No text nests deeper than this: every token opens a few levels at most. -/
def depthBound (ts : List Token) : Nat := 4 * (ts.length + 1)

/-- The items of a module, unless its tokens form none. -/
def items? (ts : List Token) : Option (List Item) :=
  (during (fun rest => !rest.isEmpty) (grammar (depthBound ts)).item ts).map (·.1)

/-- The items of a text, unless it is no module. -/
def parse? (text : List Char) : Option (List Item) := Lexer.tokens? text >>= items?

end ApiSurface.Source
