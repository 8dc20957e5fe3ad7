import ApiSurface.Source.Expressions

/-! The grammar of classes and of what interfaces and classes are built on. Members end like
statements, and none has a body. -/
namespace ApiSurface.Source
open Parse

/-- Names of types that no class or interface may take. -/
def takenNames : List String := [
  "string", "null", "number", "object", "any", "unknown", "boolean", "bigint", "symbol", "void",
  "never", "intrinsic"]

namespace Ahead

/-- The word before opens a method of that name. -/
def namesMethod : Ahead := symbolIn ["(", "<"]

/-- The word before is a field of that name, followed by its type, its value or its end. -/
def namesField : Ahead := symbolIn ["!", ":", "=", "\x7d"]

/-- The word before is the name of a member. -/
def namesMember (fieldEnd : Ahead) : Ahead := namesMethod.or (namesField.or fieldEnd)

/-- A word that modifies a member rather than to name one. -/
def modifies (w : String) (fieldEnd : Ahead) : Ahead := (word w).before ((namesMember fieldEnd).not)

end Ahead

/-- What stands in front of the key of a class member. -/
structure Modifiers where
  declared : Bool
  accessible : Bool
  isStatic : Bool
  words : List String

namespace Modifiers

def isAbstract (m : Modifiers) : Bool := m.words.contains "abstract"
def isReadonly (m : Modifiers) : Bool := m.words.contains "readonly"
def overrides (m : Modifiers) : Bool := m.words.contains "override"

/-- Modifiers that may stand in this order, behind those seen. Overriding goes before readonly, and
static before overriding; what is abstract stands in an abstract class, and what overrides has a
base. -/
def wellOrdered (isAbstract hasBase declared : Bool) : List String → List String → Bool
  | _, [] => true
  | seen, m :: ms =>
    !seen.contains m && wellOrdered isAbstract hasBase declared (m :: seen) ms &&
      match m with
      | "abstract" => isAbstract && !seen.contains "override"
      | "override" => hasBase && !declared && !seen.contains "readonly"
      | "static" => !seen.contains "override"
      | _ => true

end Modifiers

/-- What a class says to its members. -/
structure Enclosing where
  isAbstract : Bool
  hasBase : Bool

/-- The key of a class member. -/
inductive MemberKey
  | visible (key : Key)
  | hidden (name : String)

namespace MemberKey

/-- A word or a string, unless it is computed. -/
def text? : MemberKey → Option String
  | visible ⟨false, .name n _⟩ | visible ⟨false, .string n _⟩ | hidden n => some n
  | _ => none

/-- A word, unless it is computed. -/
def word? : MemberKey → Option String
  | visible ⟨false, .name n _⟩ => some n
  | _ => none

def isConstructor (k : MemberKey) : Bool := k.text? = some "constructor"

end MemberKey

namespace Grammar

/-! Bases. -/

/-- A chain of names that a class or interface is built on. -/
def base (g : Grammar) : Parse Base := do
  let start ← offset
  let first ← anyWord
  let e ← grow (fun e => do
    if ← takesSymbol "." then pure (some (Expression.member e (← memberName))) else pure none)
    (.name first start)
  if ← sees (Ahead.symbol "<") then
    let _ ← g.typeArguments
  pure e

/-! Members. -/

def classModifiers (g : Grammar) (c : Enclosing) : Parse Modifiers := do
  let _ ← g.decorators
  let first ← takes (Ahead.modifies "declare" Ahead.statementEnd)
  let accessible ← takes (Ahead.modifier ["public", "private", "protected"])
  let second ← takes (fun ts => !first && Ahead.modifies "declare" Ahead.statementEnd ts)
  let declared := first || second
  let isStatic ← takes (Ahead.modifies "static" (Ahead.symbolIn [";", "?"]))
  let words ← modifiers ["abstract", "readonly", "override", "static"]
  require (Modifiers.wellOrdered c.isAbstract c.hasBase declared
    (if isStatic then ["static"] else []) words)
  pure ⟨declared, accessible, isStatic || words.contains "static", words⟩

def memberKey (g : Grammar) : Parse MemberKey := do
  if ← sees Ahead.privateName then
    match ← next with
    | .privateName n => pure (.hidden n)
    | _ => refuse
  else .visible <$> g.propertyKey

/-- The end of a function without a body; a brace would open one, even on a new line. -/
def noBody : Parse Unit := do
  require !(← sees (Ahead.symbol "\x7b"))
  endStatement

/-- The constructor of a class, behind its key. -/
def constructorRest (g : Grammar) (m : Modifiers) (key : Key) : Parse ClassMember := do
  require !(m.isStatic || m.isAbstract || m.overrides || m.declared || m.isReadonly)
  let ps ← g.parameters true
  noBody
  pure (.constructor key ps)

/-- A method behind its key; its parameters may be restricted. -/
def methodRest (g : Grammar) (m : Modifiers) (start : Nat) (key : MemberKey)
    (fits : List Parameter → Bool) : Parse ClassMember := do
  require !(m.declared || m.isReadonly)
  let _ ← g.typeParameters ["const"]
  let ps ← g.parameters true
  require (fits ps)
  let r ← g.resultAnnotation
  noBody
  match key with
  | .visible k => pure (.method k ps r)
  | .hidden n => do
    require !(m.accessible || m.isAbstract || n = "constructor")
    pure (.privateMethod start)

/-- A field behind its key. What is abstract has no value. -/
def fieldRest (g : Grammar) (m : Modifiers) (start : Nat) (key : MemberKey)
    (accessor isOptional : Bool) : Parse ClassMember := do
  require !key.isConstructor
  if ← sees (fun ts => !isOptional && Ahead.symbol "!" ts) then symbol "!"
  let type ← g.annotation true
  let value ← given (Ahead.symbol "=") do
    symbol "="
    g.value true
  require !(m.isAbstract && value.isSome)
  endStatement
  match key with
  | .hidden _ => do
    require !(m.accessible || m.isAbstract)
    pure (if accessor then .accessor start else .privateField start)
  | .visible k => pure (if accessor then .accessor start else .field k type value)

/-- A parameter that stands for the object itself. -/
def isReceiver : Parameter → Bool
  | .named "this" _ _ => true
  | _ => false

def isRest : Parameter → Bool
  | .rest _ _ | .restPattern _ => true
  | _ => false

/-- A getter takes nothing. -/
def fitsGetter (ps : List Parameter) : Bool := ps.all isReceiver

/-- A setter takes one value. -/
def fitsSetter (ps : List Parameter) : Bool :=
  (ps.filter fun p => !isReceiver p).length = 1 && !(ps.head?.any isRest)

/-- A getter or a setter behind its word. -/
def classAccessor (g : Grammar) (m : Modifiers) (start : Nat) (fits : List Parameter → Bool) :
    Parse ClassMember := do
  let key ← g.memberKey
  require !key.isConstructor
  g.methodRest m start key fits

/-- A method or a field behind its key. -/
def keyedMember (g : Grammar) (m : Modifiers) (start : Nat) (accessor : Bool) :
    Parse ClassMember := do
  let key ← g.memberKey
  let isOptional ← takesSymbol "?"
  if ← sees Ahead.namesMethod then
    require !accessor
    match key with
    | .visible k =>
      if key.isConstructor then g.constructorRest m k
      else g.methodRest m start key fun _ => true
    | .hidden _ => g.methodRest m start key fun _ => true
  else if ← sees (Ahead.namesField.or (Ahead.symbol ";")) then
    g.fieldRest m start key accessor isOptional
  else
    let generator ← sees ((Ahead.symbol "*").and Ahead.sameLine.not)
    match key.word?, generator with
    | some "get", false => g.classAccessor m start fitsGetter
    | some "set", false => g.classAccessor m start fitsSetter
    | some "async", _ =>
      if ← sees Ahead.statementEnd then g.fieldRest m start key accessor isOptional
      else do
        let _ ← takesSymbol "*"
        let key ← g.memberKey
        require !key.isConstructor
        let _ ← takesSymbol "?"
        g.methodRest m start key fun _ => true
    | _, _ => g.fieldRest m start key accessor isOptional

/-- A block of statements that a class runs for itself. -/
def staticBlock (g : Grammar) (m : Modifiers) (start : Nat) : Parse ClassMember := do
  require !(m.declared || m.accessible || !m.words.isEmpty)
  symbol "\x7b"
  let _ ← during (Ahead.symbol "\x7d").not (g.statement .top)
  symbol "\x7d"
  pure (.staticBlock start)

def classMember (g : Grammar) (c : Enclosing) : Parse ClassMember := do
  let start ← offset
  if ← takesSymbol ";" then pure .empty
  else
    let m ← g.classModifiers c
    if ← sees (fun ts => m.isStatic && Ahead.symbol "\x7b" ts) then g.staticBlock m start
    else if ← sees opensIndex then
      require !(m.accessible || m.isAbstract || m.overrides || m.declared)
      let _ ← g.index
      endMember
      pure (.index start)
    else if ← takesSymbol "*" then
      let key ← g.memberKey
      require !key.isConstructor
      g.methodRest m start key fun _ => true
    else
      let accessor ← takes (Ahead.modifies "accessor" (Ahead.statementEnd.or (Ahead.symbol "?")))
      g.keyedMember m start accessor

def classMembers (g : Grammar) (c : Enclosing) : Parse (List ClassMember) := do
  symbol "\x7b"
  let ms ← during (Ahead.symbol "\x7d").not (g.classMember c)
  symbol "\x7d"
  pure ms

/-- The name of a class or interface. -/
def typeName : Parse String := wordThat fun w => isBindable w && !takenNames.contains w

def superclass (g : Grammar) : Parse Expression := do
  word "extends"
  let e ← settle (← g.leftHand)
  if ← sees (Ahead.symbol "<") then
    let _ ← g.typeArguments
  pure e.bare

def classRestRule (g : Grammar) (isAbstract : Bool) : Parse ClassRest := do
  let name ← given (Ahead.anyWord.and (Ahead.wordIn ["extends", "implements"]).not) typeName
  let _ ← g.typeParameters ["const", "in", "out"]
  let parent ← given (Ahead.word "extends") g.superclass
  let _ ← given (Ahead.word "implements") do
    word "implements"
    separated "," g.base
  let members ← g.classMembers ⟨isAbstract, parent.isSome⟩
  pure ⟨name, parent, members⟩

/-! Interfaces. -/

/-- The bases of an interface; a brace may come at once. -/
def bases (g : Grammar) : Parse (List Base) := do
  if ← takesWord "extends" then
    during (Ahead.symbol "\x7b").not do
      let b ← g.base
      if ← sees (Ahead.symbol "\x7b") then pure b
      else do
        symbol ","
        pure b
  else pure []

/-- An interface behind its word. -/
def interfaceRest (g : Grammar) : Parse Item := do
  require (← sees Ahead.sameLine)
  let name ← typeName
  let _ ← g.typeParameters ["in", "out"]
  let bs ← g.bases
  pure (.interface name bs (← g.signatures))

end Grammar
end ApiSurface.Source
