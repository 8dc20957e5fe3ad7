import ApiSurface.Fault
import ApiSurface.Source.Module
import ApiSurface.TypeText

/-! The structure of a declaration file. Every item of the file is mapped or refused, in source
order; what only passes names on, such as an import, declares nothing. -/
namespace ApiSurface
open Source

/-! Parameters and members. -/

/-- A parameter of a method in a type or an interface. -/
def Source.Parameter.declaration (p : Parameter) : Except Refusal Declaration := do
  let (name, type) ← p.parts
  return .parameter name type

/-- A parameter of a function or of a method in a class. -/
def Source.Parameter.ambientDeclaration : Parameter → Except Refusal Declaration
  | .arrayPattern o | .objectPattern o => refused .destructuredParameter o
  | p => p.declaration

/-- The type that a value tells, looking through the operators in front of it. -/
def Source.Expression.literalType : Expression → Except Refusal String
  | .string _ _ => .ok "string"
  | .number _ _ => .ok "number"
  | .boolean _ => .ok "boolean"
  | .unary e _ => e.literalType
  | e => refused .initializer e.offset

/-- The type of a property: as written, or else as its value tells. -/
def propertyType : Option TypeTerm → Option Expression → Except Refusal String
  | some t, _ => t.text
  | none, some e => e.literalType
  | none, none => .ok voidText

/-- The name of a class member by its key. -/
def Source.Key.memberText : Key → Except Refusal String
  | ⟨false, .bigint o⟩ => refused .bigintKey o
  | k => k.text

/-- A class member; an empty one declares nothing. -/
def Source.ClassMember.declaration : ClassMember → Except Refusal (Option Declaration)
  | .constructor key ps => do
    let params ← ps.mapM (·.ambientDeclaration)
    return some (.method (← key.memberText) params (some voidText))
  | .method key ps r => do
    let params ← ps.mapM (·.ambientDeclaration)
    let name ← key.memberText
    return some (.method name params (some (← annotationText r)))
  | .field key t e => do
    let name ← key.memberText
    return some (.property name (← propertyType t e))
  | .empty => .ok none
  | .privateMethod o => refused .privateMethod o
  | .privateField o => refused .privateProperty o
  | .index o => refused .indexSignature o
  | .staticBlock o => refused .staticBlock o
  | .accessor o => refused .autoAccessor o

/-- A member of an interface. Getters and setters are methods. -/
def Source.Signature.declaration : Signature → Except Refusal Declaration
  | .property _ key _ t => do
    let name ← key.text
    return .property name (← annotationText t)
  | .method key _ _ ps r => do
    let params ← ps.mapM (·.declaration)
    let name ← key.text
    return .method name params (some (← annotationText r))
  | .getter key t => do
    let name ← key.text
    return .method name [] (some (← annotationText t))
  | .setter key p => do
    let param ← p.declaration
    return .method (← key.text) [param] (some voidText)
  | .call _ _ _ o => refused .callSignature o
  | .construct _ _ _ o => refused .constructSignature o
  | .index _ _ _ _ o => refused .indexSignature o

/-! Items. -/

/-- The name of a base, written with points. -/
def baseText (otherwise : Construct) (e : Expression) : Except Refusal String :=
  match e.path? with
  | some path => .ok (dotted path)
  | none => refused otherwise e.offset

def Source.Variable.declaration : Variable → Except Refusal Declaration
  | .named n t e => do return .property n (← propertyType t e)
  | .pattern o => refused .destructuredVariable o

/-- The name of what a module exports by default, if it has no other. -/
def defaultName (name : Option String) : String := name.getD "default"

/-- The declarations of an item. -/
def Source.Item.declarations : Item → Except Refusal (List Declaration)
  | .enumeration n vs => .ok [.enumeration n vs]
  | .classType n s ms => do
    let superclass ← s.mapM (baseText .superclassExpression)
    let members ← ms.mapM (·.declaration)
    return [.classType (defaultName n) (members.filterMap id) superclass]
  | .interface n bs ms => do
    let bases ← bs.mapM (baseText .extendsExpression)
    return [.interface n (← ms.mapM (·.declaration)) bases]
  | .function n ps => do
    return [.method (defaultName n) (← ps.mapM (·.ambientDeclaration)) none]
  | .typeAlias n t => do return [.typeAlias n (← t.text)]
  | .variableList vs => vs.mapM (·.declaration)
  | .namespaceBlock o => refused .namespaceBlock o
  | .augmentation o => refused .globalAugmentation o
  | .using o => refused .usingDeclaration o
  | .statement o => refused .statement o
  | .silent => .ok []

/-- The declarations of a module, item by item. -/
def structureOf (items : List Item) : Except Refusal Structure :=
  List.flatten <$> items.mapM (·.declarations)

/-! Texts. -/

/-- A text without the mark that may open it. -/
def withoutMark : List Char → List Char
  | '\ufeff' :: cs => cs
  | cs => cs

/-- A refusal as a fault at a place of a text. -/
def Refusal.located (text : List Char) (r : Refusal) : Fault :=
  .unsupported r.construct.name (Location.ofOffset text r.offset)

/-- The items of a text, or the fault of a text that has none. -/
def itemsOf (text : List Char) : Except Fault (List Item) :=
  match parse? text with
  | some items => .ok items
  | none => .error (.grammar "the text is no declaration file")

/-- The structure of a declaration file. -/
def extract (source : String) : Except Fault Structure := do
  let text := withoutMark source.toList
  (structureOf (← itemsOf text)).mapError (·.located text)

/-- The text of a type that stands by itself, read as the type of an alias. -/
def renderType (type : String) : Except Fault String := do
  let text := ("type __Rendered = " ++ type ++ ";\n").toList
  match ← itemsOf text with
  | .typeAlias _ t :: _ => t.text.mapError (·.located text)
  | _ => .error (Refusal.located text ⟨.typeExpression, 0⟩)

end ApiSurface
