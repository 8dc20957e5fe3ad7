import ApiSurface.Source.Grammar

/-! Keys of members, patterns that bind names, and parameters. Nothing ambient has a default value.
-/
namespace ApiSurface.Source
open Parse

/-- What may follow a modifier on its line, for it to be one. -/
def Ahead.startsName : Ahead := fun ts =>
  symbolIn ["[", "\x7b", "*", "..."] ts || privateName ts || anyWord ts || string ts || number ts

/-- One of the given words comes next, and it modifies something. -/
def Ahead.modifier (words : List String) : Ahead :=
  (wordIn words).before (sameLine.and startsName)

namespace Grammar

/-- A member of a literal. -/
def literalMember (g : Grammar) (e : Expression) : Parse (Option Expression) := do
  if ← takesSymbol "." then
    let w ← anyWord
    pure (some (.member e (some w)))
  else if ← takesSymbol "[" then
    let _ ← g.sequence true
    symbol "]"
    pure (some (.member e none))
  else pure none

/-- A key that is a word, a string or a number. -/
def simpleKey : Parse Expression := do
  let start ← offset
  match ← next with
  | .word w => pure (.name w start)
  | .string s => pure (.string s start)
  | .number n => pure (.number n start)
  | _ => refuse

/-- The key of a member of an interface or an object type. -/
def signatureKey (g : Grammar) : Parse Key := do
  if ← takesSymbol "[" then
    let e ← g.value false
    symbol "]"
    pure ⟨true, e⟩
  else if ← sees Ahead.anyWord then
    pure ⟨false, ← simpleKey⟩
  else
    pure ⟨false, ← grow g.literalMember (← simpleKey)⟩

/-- The key of a property in a class, an object or a pattern. -/
def propertyKey (g : Grammar) : Parse Key := do
  let start ← offset
  if ← takesSymbol "[" then
    let e ← g.value true
    symbol "]"
    pure ⟨true, e⟩
  else if ← takes Ahead.bigint then pure ⟨false, .bigint start⟩
  else pure ⟨false, ← simpleKey⟩

/-- A default value, where one is allowed. -/
def defaultValue (g : Grammar) (defaults : Bool) : Parse Unit := do
  if ← takesSymbol "=" then
    require defaults
    let _ ← g.value true

/-- An element of an array pattern; it may be left out. -/
def arrayBinding (g : Grammar) (defaults : Bool) : Parse Unit := do
  if ← sees (Ahead.symbol ",") then pure ()
  else if ← takesSymbol "..." then
    let _ ← g.binding defaults
    require (← sees (Ahead.symbol "]"))
  else
    let _ ← g.binding defaults
    g.defaultValue defaults

/-- A property of an object pattern. -/
def objectBinding (g : Grammar) (defaults : Bool) : Parse Unit := do
  if ← takesSymbol "..." then
    let _ ← boundName
    require (← sees (Ahead.symbol "\x7d"))
  else if ← sees (Ahead.anyWord.before (Ahead.symbolIn [",", "=", "\x7d"])) then
    let _ ← boundName
    g.defaultValue defaults
  else
    let _ ← g.propertyKey
    symbol ":"
    let _ ← g.binding defaults
    g.defaultValue defaults

/-- A name or a pattern. -/
def bindingRule (g : Grammar) (defaults : Bool) : Parse Binding := do
  let start ← offset
  if ← takesSymbol "[" then
    let _ ← commaList "]" (g.arrayBinding defaults)
    pure (.array start)
  else if ← takesSymbol "\x7b" then
    let _ ← commaList "\x7d" (g.objectBinding defaults)
    pure (.object start)
  else pure (.name (← boundName))

/-- A modifier that only a constructor in code may give a parameter. -/
def modifiesParameter : Ahead :=
  (Ahead.wordIn ["public", "private", "protected", "readonly"]).before
    (Ahead.anyWord.or (Ahead.symbolIn ["[", "\x7b"]))

def parameter (g : Grammar) (conditional defaults : Bool) : Parse Parameter := do
  let _ ← g.decorators
  if ← takesSymbol "..." then
    let start ← offset
    let b ← g.binding defaults
    let type ← g.annotation conditional
    require (← sees (Ahead.symbol ")"))
    match b with
    | .name n => pure (.rest n type)
    | _ => pure (.restPattern start)
  else
    require !(← sees modifiesParameter)
    let b ← g.binding defaults
    let isOptional ← takesSymbol "?"
    let type ← g.annotation conditional
    g.defaultValue defaults
    match b with
    | .name n => pure (.named n isOptional type)
    | .array o => pure (.arrayPattern o)
    | .object o => pure (.objectPattern o)

/-- The parameters of a signature, in their brackets. -/
def parameters (g : Grammar) (conditional : Bool) : Parse (List Parameter) := do
  symbol "("
  commaList ")" (g.parameter conditional false)

end Grammar
end ApiSurface.Source
