import ApiSurface.Source.Names

/-! The grammar of types. From loosest to tightest: conditional types; functions and constructors;
unions; intersections; operators; arrays and indexed types; and types that stand by themselves. -/
namespace ApiSurface.Source
open Parse

/-- Words of the types that need no declaration. -/
def keywordTypes : List String := [
  "any", "unknown", "number", "object", "boolean", "bigint", "string", "symbol", "void",
  "undefined", "null", "never", "intrinsic"]

/-- A word that may open the name of a type. -/
def opensTypeName (w : String) : Bool :=
  ["await", "break", "enum", "null", "void", "yield", "implements", "interface", "package",
    "private", "protected", "public"].contains w || isReference w

def TypeOperator.word : TypeOperator → String
  | keyof => "keyof"
  | unique => "unique"
  | readonly => "readonly"

def TypeOperator.ofWord? (w : String) : Option TypeOperator :=
  [keyof, unique, readonly].find? (·.word = w)

theorem TypeOperator.ofWord?_word (o : TypeOperator) : ofWord? o.word = some o := by
  cases o <;> rfl

namespace Grammar

/-- Type arguments; there is one at least. -/
def typeArguments (g : Grammar) : Parse (List TypeTerm) := do
  symbol "<"
  let types ← commaList ">" (g.type true)
  require !types.isEmpty
  pure types

/-- Type arguments on the line of what they are given to. -/
def nearArguments (g : Grammar) : Parse (List TypeTerm) := do
  if ← sees (Ahead.symbol "<" |>.and Ahead.sameLine) then g.typeArguments else pure []

/-- A name, and names of members behind it. -/
def dotted (first rest : String → Bool) : Parse (List String) := do
  let w ← wordThat first
  let ws ← during (Ahead.symbol ".") do
    symbol "."
    wordThat rest
  pure (w :: ws)

/-- All modifiers that stand here. -/
def modifiers (words : List String) : Parse (List String) :=
  during (Ahead.modifier words) anyWord

/-- Modifiers of type parameters come once, and `in` before `out`. -/
def orderedModifiers : List String → Bool
  | [] => true
  | m :: ms => !ms.contains m && !(m = "out" && ms.contains "in") && orderedModifiers ms

def typeParameter (g : Grammar) (allowed : List String) : Parse TypeParameter := do
  let ms ← modifiers ["public", "private", "protected", "readonly", "abstract", "const", "override",
    "in", "out"]
  require (ms.all allowed.contains && orderedModifiers ms)
  let name ← anyWord
  let bound ← given (Ahead.word "extends") do
    word "extends"
    g.type true
  let preset ← given (Ahead.symbol "=") do
    symbol "="
    g.type true
  pure (.mk ms name bound preset)

/-- Type parameters, if there are any; empty brackets are refused. -/
def typeParameters (g : Grammar) (allowed : List String) : Parse (List TypeParameter) := do
  if ← takesSymbol "<" then
    let ps ← commaList ">" (g.typeParameter allowed)
    require !ps.isEmpty
    pure ps
  else pure []

/-- The result of a function, which may say something about a parameter. -/
def result (g : Grammar) (conditional : Bool) : Parse TypeTerm := do
  let asserts ← takes ((Ahead.word "asserts").before Ahead.reference)
  let tests ← sees (Ahead.reference.before ((Ahead.word "is").and Ahead.sameLine))
  if tests then
    let subject ← anyWord
    word "is"
    pure (.predicate asserts subject (some (← g.type conditional)))
  else if asserts then
    pure (.predicate true (← anyWord) none)
  else g.type conditional

/-- The result of a function behind a colon, if there is one. -/
def resultAnnotation (g : Grammar) : Parse (Option TypeTerm) :=
  given (Ahead.symbol ":") do
    symbol ":"
    g.result true

/-! Members of interfaces and object types. -/

/-- The end of a member. -/
def endMember : Parse Unit := do
  unless ← takesSymbol "," do endStatement

def opensParameters : Ahead := Ahead.symbolIn ["(", "<"]

def callSignature (g : Grammar) (start : Nat) : Parse Signature := do
  let generics ← g.typeParameters ["const"]
  let ps ← g.parameters true
  let r ← g.resultAnnotation
  endMember
  pure (.call generics ps r start)

def constructSignature (g : Grammar) (start : Nat) : Parse Signature := do
  word "new"
  let generics ← g.typeParameters ["const"]
  let ps ← g.parameters true
  let r ← g.resultAnnotation
  endMember
  pure (.construct generics ps r start)

/-- A word in brackets, with a type: the key of an index. -/
def opensIndex : Ahead :=
  (Ahead.symbol "[").before (Ahead.reference.before (Ahead.symbolIn [":", ","]))

/-- An index, without the end of the member. -/
def index (g : Grammar) : Parse (String × TypeTerm × Option TypeTerm) := do
  symbol "["
  let name ← anyWord
  symbol ":"
  let keys ← g.type true
  symbol "]"
  let type ← g.annotation true
  pure (name, keys, type)

def getter (g : Grammar) : Parse Signature := do
  word "get"
  let key ← g.signatureKey
  symbol "("
  symbol ")"
  let type ← g.annotation true
  endMember
  pure (.getter key type)

/-- A setter; all parameters behind the first are left out. -/
def setter (g : Grammar) : Parse Signature := do
  word "set"
  let key ← g.signatureKey
  match ← g.parameters true with
  | [] => refuse
  | p :: _ => do
    endMember
    pure (.setter key p)

/-- A property or a method. -/
def keyedSignature (g : Grammar) (readonly : Bool) : Parse Signature := do
  let key ← g.signatureKey
  let isOptional ← takesSymbol "?"
  if ← sees opensParameters then
    require !readonly
    let generics ← g.typeParameters ["const"]
    let ps ← g.parameters true
    let r ← g.resultAnnotation
    endMember
    pure (.method key isOptional generics ps r)
  else
    let type ← g.annotation true
    endMember
    pure (.property readonly key isOptional type)

def signature (g : Grammar) : Parse Signature := do
  let start ← offset
  if ← sees opensParameters then g.callSignature start
  else if ← sees ((Ahead.word "new").before opensParameters) then
    g.constructSignature start
  else
    let readonly ← takes (Ahead.modifier ["readonly"])
    if ← sees opensIndex then
      let (name, keys, type) ← g.index
      endMember
      pure (.index readonly name keys type start)
    else orElse g.getter (orElse g.setter (g.keyedSignature readonly))

/-- Signatures in braces. -/
def signatures (g : Grammar) : Parse (List Signature) := do
  symbol "\x7b"
  let ms ← during (Ahead.symbol "\x7d").not g.signature
  symbol "\x7d"
  pure ms

/-! Types that stand by themselves. -/

def takesOperator : Parse (Option TypeOperator) := do
  if ← sees (Ahead.wordThat fun w => (TypeOperator.ofWord? w).isSome) then
    pure (TypeOperator.ofWord? (← anyWord))
  else pure none

/-- A sign in front of a modifier of a mapped type. -/
def mark (modifier : Parse Bool) : Parse (Option Mark) := do
  if ← takesSymbol "+" then
    require (← modifier)
    pure (some .plus)
  else if ← takesSymbol "-" then
    require (← modifier)
    pure (some .minus)
  else if ← modifier then pure (some .plain)
  else pure none

/-- What makes braces a mapped type rather than an object type. -/
def opensMapped : Ahead := fun ts =>
  let key : Ahead := (Ahead.symbol "[").before (Ahead.reference.before (Ahead.word "in"))
  Ahead.symbolIn ["+", "-"] ts && Ahead.word "readonly" ts.tail ||
    (if Ahead.word "readonly" ts then key ts.tail else key ts)

/-- A mapped type behind its opening brace. -/
def mapped (g : Grammar) : Parse TypeTerm := do
  let readonly ← mark (takesWord "readonly")
  symbol "["
  let name ← anyWord
  word "in"
  let keys ← g.type true
  let renamed ← given (Ahead.word "as") do
    word "as"
    g.type true
  symbol "]"
  let isOptional ← mark (takesSymbol "?")
  let value ← g.annotation true
  endStatement
  symbol "\x7d"
  pure (.mapped readonly name keys renamed isOptional value)

/-- A hole of a template with the chunk behind it, and whether that chunk is the last. -/
def hole (g : Grammar) : Parse (Hole × Bool) := do
  let type ← g.type true
  match ← next with
  | .template chunk false closes true => pure (.mk type chunk, closes)
  | _ => refuse

/-- The holes of a template, behind its first chunk. -/
def holes (g : Grammar) : Parse (List Hole) :=
  Prod.fst <$> grow (fun (hs, finished) => do
    if finished then pure none
    else
      let (h, last) ← g.hole
      pure (some (hs ++ [h], last))) ([], false)

def template (g : Grammar) : Parse TypeTerm := do
  match ← next with
  | .template first true true true => pure (.template first [])
  | .template first true false true => .template first <$> g.holes
  | _ => refuse

/-- The label of an element of a tuple: whether it takes the rest, its name, whether it is optional.
-/
def elementLabel : Parse (Bool × String × Bool) := do
  let takesRest ← takesSymbol "..."
  let name ← anyWord
  let isOptional ← takesSymbol "?"
  symbol ":"
  pure (takesRest, name, isOptional)

def elementType (g : Grammar) : Parse TypeTerm := do
  if ← takesSymbol "..." then pure (.rest (← g.type true))
  else
    let type ← g.type true
    if ← takesSymbol "?" then pure (.optional type) else pure type

def tupleElement (g : Grammar) : Parse TupleElement := do
  match ← attempt elementLabel with
  | some (takesRest, name, isOptional) =>
    pure (.labelled takesRest name isOptional (← g.elementType))
  | none => pure (.plain (← g.elementType))

/-- Behind an optional type all types are optional or take the rest. -/
def optionalsLast : Bool → List TupleElement → Bool
  | _, [] => true
  | seen, .plain t :: es | seen, .labelled _ _ _ t :: es =>
    match t with
    | .rest _ => optionalsLast seen es
    | .optional _ => optionalsLast true es
    | _ => !seen && optionalsLast seen es

def tuple (g : Grammar) : Parse TypeTerm := do
  symbol "["
  let es ← commaList "]" g.tupleElement
  require (optionalsLast false es)
  pure (.tuple es)

/-- An attribute that a module is imported with. -/
def importAttribute : Parse Unit := do
  require (← takes (Ahead.anyWord.or Ahead.string))
  symbol ":"
  let _ ← string

def importAttributes : Parse Unit := do
  symbol "\x7b"
  let _ ← commaList "\x7d" importAttribute

/-- The attributes of an imported type, behind a comma. -/
def typeAttributes : Parse Unit := do
  if ← takesSymbol "," then
    if ← takesSymbol "\x7b" then
      word "with"
      symbol ":"
      importAttributes
      let _ ← takesSymbol ","
      symbol "\x7d"
      let _ ← takesSymbol ","

/-- The module of an imported type, and the path in it. -/
def importedPath : Parse (String × List String) := do
  word "import"
  symbol "("
  let source ← string
  typeAttributes
  symbol ")"
  if ← takesSymbol "." then pure (source, ← dotted (fun _ => true) isReference)
  else pure (source, [])

/-- Arguments of an imported type. -/
def importedArguments (g : Grammar) : Parse (List TypeTerm) := do
  if ← sees (Ahead.symbol "<") then g.typeArguments else pure []

def imported (g : Grammar) : Parse TypeTerm := do
  let (source, path) ← importedPath
  pure (.imported source path (← g.importedArguments))

/-- The type of a value. -/
def query (g : Grammar) : Parse TypeTerm := do
  word "typeof"
  if ← sees (Ahead.word "import") then
    let (source, path) ← importedPath
    let own ← g.importedArguments
    pure (.queryImport source path own (← g.nearArguments))
  else
    let path ← dotted (fun _ => true) (fun _ => true)
    pure (.query path (← g.nearArguments))

/-- The type of the object itself, which may be a test of it. -/
def this (g : Grammar) : Parse TypeTerm := do
  word "this"
  if ← takes ((Ahead.word "is").and Ahead.sameLine) then
    pure (.predicate false "this" (some (← g.type true)))
  else pure .this

/-- An assertion about the object itself. -/
def assertsThis (g : Grammar) : Parse TypeTerm := do
  word "asserts"
  word "this"
  if ← takes ((Ahead.word "is").and Ahead.sameLine) then
    pure (.predicate true "this" (some (← g.type true)))
  else pure (.predicate true "this" none)

def negative : Parse TypeTerm := do
  symbol "-"
  match ← next with
  | .number n => pure (.number ("-" ++ n))
  | .bigint n => pure (.bigint ("-" ++ n))
  | _ => refuse

/-- A type that opens with a word. -/
def namedType (g : Grammar) : Parse TypeTerm := do
  if ← sees ((Ahead.word "asserts").before (Ahead.word "this")) then g.assertsThis
  else if ← sees ((Ahead.wordIn keywordTypes).before (Ahead.symbol ".").not) then
    .keyword <$> anyWord
  else if ← takesWord "true" then pure (.boolean true)
  else if ← takesWord "false" then pure (.boolean false)
  else if ← sees (Ahead.word "this") then g.this
  else if ← sees (Ahead.word "typeof") then g.query
  else if ← sees (Ahead.word "import") then g.imported
  else
    let path ← dotted opensTypeName (fun _ => true)
    pure (.reference path (← g.nearArguments))

def bracketedType (g : Grammar) : Parse TypeTerm := do
  if ← takesSymbol "(" then
    let type ← g.type true
    symbol ")"
    pure (.parenthesized type)
  else if ← sees (Ahead.symbol "[") then g.tuple
  else if ← sees ((Ahead.symbol "\x7b").before opensMapped) then
    symbol "\x7b"
    g.mapped
  else .object <$> g.signatures

def primaryType (g : Grammar) : Parse TypeTerm := do
  if ← sees Ahead.anyWord then g.namedType
  else if ← sees (Ahead.symbolIn ["(", "[", "\x7b"]) then g.bracketedType
  else if ← sees (Ahead.symbol "-") then negative
  else if ← sees Ahead.template then g.template
  else
    match ← next with
    | .string s => pure (.string s)
    | .number n => pure (.number n)
    | .bigint n => pure (.bigint n)
    | _ => refuse

/-- One more pair of square brackets behind a type, on the same line. -/
def suffix (g : Grammar) (t : TypeTerm) : Parse (Option TypeTerm) := do
  if ← takes ((Ahead.symbol "[").and Ahead.sameLine) then
    if ← takesSymbol "]" then pure (some (.array t))
    else
      let index ← g.type true
      symbol "]"
      pure (some (.indexed t index))
  else pure none

def suffixedType (g : Grammar) : Parse TypeTerm := do
  grow g.suffix (← g.primaryType)

/-- The bound of an inferred type. It is none if the whole then turns out to be a condition. -/
def inferredBound (g : Grammar) (conditional : Bool) : Parse TypeTerm := do
  word "extends"
  let bound ← g.type false
  require !(conditional && (← sees (Ahead.symbol "?")))
  pure bound

def typeOperandRule (g : Grammar) (conditional : Bool) : Parse TypeTerm := do
  match ← takesOperator with
  | some o => .operator o <$> g.typeOperand conditional
  | none =>
    if ← takesWord "infer" then
      let name ← anyWord
      pure (.infer name (← attempt (g.inferredBound conditional)))
    else g.suffixedType

/-- Types joined by a symbol, which may open the whole as well. -/
def joined (join : String) (whole : List TypeTerm → TypeTerm) (part : Parse TypeTerm) :
    Parse TypeTerm := do
  let _ ← takesSymbol join
  match ← separated join part with
  | [t] => pure t
  | ts => pure (whole ts)

def union (g : Grammar) (conditional : Bool) : Parse TypeTerm :=
  joined "|" .union (joined "&" .intersection (g.typeOperandRule conditional))

/-- What makes brackets the parameters of a function rather than a type. -/
def opensFunction (g : Grammar) : Parse Bool := do
  if ← sees (Ahead.symbol "<") then pure true
  else
    symbol "("
    if ← sees (Ahead.symbolIn [")", "..."]) then pure true
    else
      let _ ← takes modifiesParameter
      if ← sees (Ahead.symbolIn ["[", "\x7b"]) then
        let _ ← g.binding false
      else
        let _ ← anyWord
      if ← takesSymbol ")" then sees (Ahead.symbol "=>")
      else sees (Ahead.symbolIn [":", ",", "?", "="])

def function (g : Grammar) (conditional : Bool) : Parse TypeTerm := do
  let generics ← g.typeParameters ["const"]
  let ps ← g.parameters conditional
  symbol "=>"
  pure (.function generics ps (← g.result conditional))

def constructor (g : Grammar) (conditional : Bool) : Parse TypeTerm := do
  let isAbstract ← takesWord "abstract"
  word "new"
  let generics ← g.typeParameters ["const"]
  let ps ← g.parameters conditional
  symbol "=>"
  pure (.constructor isAbstract generics ps (← g.result conditional))

def unconditional (g : Grammar) (conditional : Bool) : Parse TypeTerm := do
  if ← foresees g.opensFunction then g.function conditional
  else if ← sees (fun ts =>
      Ahead.word "new" ts || Ahead.word "abstract" ts && Ahead.word "new" ts.tail) then
    g.constructor conditional
  else g.union conditional

def typeRule (g : Grammar) (conditional : Bool) : Parse TypeTerm := do
  let checked ← g.unconditional conditional
  if ← sees (fun ts => conditional && (Ahead.word "extends").and Ahead.sameLine ts) then
    word "extends"
    let bound ← g.type false
    symbol "?"
    let yes ← g.type true
    symbol ":"
    let no ← g.type true
    pure (.conditional checked bound yes no)
  else pure checked

end Grammar
end ApiSurface.Source
