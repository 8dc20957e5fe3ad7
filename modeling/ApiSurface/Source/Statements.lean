import ApiSurface.Source.Declarations

/-! The grammar of statements. A statement declares nothing, but it has to be well formed; where it
may leave a loop or a label depends on what it stands in. -/
namespace ApiSurface.Source
open Parse

namespace Flow

def loop (f : Flow) : Flow := ⟨true, true, f.labels⟩
def switch (f : Flow) : Flow := ⟨f.inLoop, true, f.labels⟩
def label (f : Flow) (l : String) : Flow := ⟨f.inLoop, f.breakable, l :: f.labels⟩

end Flow

/-- A statement, and not a declaration. -/
def Item.isStatement : Item → Bool
  | .statement _ | .silent => true
  | _ => false

namespace Grammar

def block (g : Grammar) (f : Flow) : Parse Unit := do
  symbol "\x7b"
  let _ ← during (Ahead.symbol "\x7d").not (g.statement f)
  symbol "\x7d"

/-- The statement that another one governs. -/
def body (g : Grammar) (f : Flow) : Parse Unit := do
  require (← g.statement f).isStatement

def condition (g : Grammar) : Parse Unit := do
  symbol "("
  let _ ← g.sequence true
  symbol ")"

def ifRest (g : Grammar) (f : Flow) : Parse Unit := do
  g.condition
  g.body f
  if ← takesWord "else" then g.body f

def whileRest (g : Grammar) (f : Flow) : Parse Unit := do
  g.condition
  g.body f.loop

def doRest (g : Grammar) (f : Flow) : Parse Unit := do
  g.body f.loop
  word "while"
  g.condition
  let _ ← takesSymbol ";"

/-! Loops over ranges and collections. -/

/-- What stands behind the first semicolon of a loop. -/
def forSteps (g : Grammar) : Parse Unit := do
  symbol ";"
  unless ← sees (Ahead.symbol ";") do
    let _ ← g.sequence true
  symbol ";"
  unless ← sees (Ahead.symbol ")") do
    let _ ← g.sequence true

/-- The collection that a loop goes over, behind its variable. -/
def forOver (g : Grammar) (awaits : Bool) : Parse Unit := do
  if ← takesWord "of" then
    let _ ← g.value true
  else
    word "in"
    require !awaits
    let _ ← g.sequence true

def overAhead : Ahead := Ahead.wordIn ["of", "in"]

def forVariables (g : Grammar) (awaits : Bool) : Parse Unit := do
  let b ← attempt do
    let _ ← g.binding false
    require (← sees overAhead)
  match b with
  | some () => g.forOver awaits
  | none => do
    let _ ← separated "," (g.variableDeclaration false)
    require !awaits
    g.forSteps

def forExpression (g : Grammar) (awaits : Bool) : Parse Unit := do
  let first ← attempt do
    let o ← g.leftHand
    require ([.value, .parts].contains o.target)
    require (← sees overAhead)
  match first with
  | some () => g.forOver awaits
  | none => do
    let _ ← g.sequence false
    require !awaits
    g.forSteps

def forRest (g : Grammar) (f : Flow) : Parse Unit := do
  let awaits ← takesWord "await"
  symbol "("
  if ← sees (Ahead.symbol ";") then
    require !awaits
    g.forSteps
  else if ← takes (Ahead.wordIn ["const", "let", "var"]) then g.forVariables awaits
  else g.forExpression awaits
  symbol ")"
  g.body f.loop

/-! Choices and faults. -/

def caseLabel (g : Grammar) : Parse Bool := do
  let isDefault ← takesWord "default"
  unless isDefault do
    word "case"
    let _ ← g.sequence true
  symbol ":"
  pure isDefault

/-- A case with its statements, and whether it is the default. -/
def switchCase (g : Grammar) (f : Flow) : Parse Bool := do
  let isDefault ← g.caseLabel
  let ends := (Ahead.wordIn ["case", "default"]).or (Ahead.symbol "\x7d")
  let _ ← during ends.not (g.statement f.switch)
  pure isDefault

def switchRest (g : Grammar) (f : Flow) : Parse Unit := do
  g.condition
  symbol "\x7b"
  let defaults ← during (Ahead.symbol "\x7d").not (g.switchCase f)
  symbol "\x7d"
  require ((defaults.filter id).length ≤ 1)

/-- A caught fault is of a type that tells nothing, if it has one. -/
def catchable : Option TypeTerm → Bool
  | none | some (.keyword "any") | some (.keyword "unknown") => true
  | _ => false

def catchRest (g : Grammar) (f : Flow) : Parse Unit := do
  if ← takesSymbol "(" then
    let _ ← g.binding false
    require (catchable (← g.annotation true))
    symbol ")"
  g.block f

def tryRest (g : Grammar) (f : Flow) : Parse Unit := do
  g.block f
  let catches ← takesWord "catch"
  if catches then g.catchRest f
  let finishes ← takesWord "finally"
  if finishes then g.block f
  require (catches || finishes)

def throwRest (g : Grammar) : Parse Unit := do
  require (← sees Ahead.sameLine)
  let _ ← g.sequence true
  endStatement

/-- The target of a jump: a label, or what is around it. -/
def jumpRest (f : Flow) (around : Bool) : Parse Unit := do
  if ← sees (Ahead.anyWord.and Ahead.sameLine) then
    require (f.labels.contains (← anyWord))
  else require around
  endStatement

/-! Statements by their first words. -/

def expressionStatement (g : Grammar) : Parse Unit := do
  let _ ← g.sequence true
  endStatement

def labelled (g : Grammar) (f : Flow) : Parse Unit := do
  let l ← wordThat isReference
  symbol ":"
  require !(f.labels.contains l)
  g.body (f.label l)

/-- A word that names a resource follows the word before. -/
def opensUsing : Ahead := fun ts =>
  Ahead.word "using" ts && Ahead.sameLine ts.tail && Ahead.reference ts.tail &&
    !Ahead.wordIn ["of", "as", "satisfies"] ts.tail

/-- A statement that is no declaration. -/
def plainStatement (g : Grammar) (f : Flow) : Parse Unit := do
  if ← sees (Ahead.symbol "\x7b") then g.block f
  else if ← takesWord "if" then g.ifRest f
  else if ← takesWord "while" then g.whileRest f
  else if ← takesWord "do" then g.doRest f
  else if ← takesWord "for" then g.forRest f
  else if ← takesWord "switch" then g.switchRest f
  else if ← takesWord "try" then g.tryRest f
  else if ← takesWord "throw" then g.throwRest
  else if ← takesWord "break" then jumpRest f f.breakable
  else if ← takesWord "continue" then jumpRest f f.inLoop
  else if ← takesWord "debugger" then endStatement
  else if ← sees (Ahead.reference.before (Ahead.symbol ":")) then g.labelled f
  else g.expressionStatement

/-- A class behind its decorators. -/
def decoratedClass (g : Grammar) : Parse Item := do
  let _ ← takesWord "declare"
  let isAbstract ← takesWord "abstract"
  word "class"
  g.classItem isAbstract false

/-- A statement or a declaration. -/
def statementRule (g : Grammar) (f : Flow) : Parse Item := do
  let start ← offset
  if ← takesSymbol ";" then pure .silent
  else if ← g.decorators then g.decoratedClass
  else if ← takes opensUsing then g.usingRest start
  else if ← takes ((Ahead.word "await").before (Ahead.sameLine.and opensUsing)) then
    word "using"
    g.usingRest start
  else
    match ← g.declaration with
    | some i => pure i
    | none => do
      g.plainStatement f
      pure (.statement start)

end Grammar
end ApiSurface.Source
