import ApiSurface.Source.Operators
import ApiSurface.Source.Types

/-! The grammar of expressions. Functions with a body in braces are refused, since nothing ambient
has one. -/
namespace ApiSurface.Source
open Parse

/-- Where an expression may start, as far as the next token tells. -/
def Ahead.startsExpression : Ahead := lexeme fun
  | .word w => !(["in", "instanceof", "as", "satisfies", "implements", "extends"].contains w)
  | .symbol s => ["(", "[", "\x7b", "!", "~", "++", "--", "@", "<", "+", "-"].contains s
  | .template _ opens _ _ => opens
  | _ => true

/-- Type arguments without a call are given where the expression ends or an operator follows. -/
def Ahead.endsArguments : Ahead
  | [] => true
  | t :: ts => t.startsLine || !startsExpression (t :: ts)

namespace Grammar

/-! Literals with parts. -/

/-- The rest of a template behind a chunk. -/
def templateRest (g : Grammar) (tagged : Bool) : Parse Unit := do
  let _ ← grow (fun finished => do
    if finished then pure none
    else
      let _ ← g.sequence true
      match ← next with
      | .template _ false closes sound => do
        require (tagged || sound)
        pure (some closes)
      | _ => refuse) false

/-- A template; only a tag takes escapes that are not sound. -/
def templateLiteral (g : Grammar) (tagged : Bool) : Parse Unit := do
  match ← next with
  | .template _ true closes sound => do
    require (tagged || sound)
    unless closes do g.templateRest tagged
  | _ => refuse

/-- What a part of a literal says of the whole: whether it may be a part of a pattern, and whether
it has to be. -/
structure Part where
  assignable : Bool
  pending : Bool

def Part.ofOperand (o : Operand) : Part := ⟨o.target != .nothing, o.pending⟩

def Part.whole (start : Nat) (parts : List Part) : Operand :=
  ⟨.other start, if parts.all (·.assignable) then .parts else .nothing, parts.any (·.pending)⟩

/-- An element of an array; it may be left out. -/
def element (g : Grammar) : Parse Part := do
  if ← sees (Ahead.symbol ",") then pure ⟨true, false⟩
  else if ← takesSymbol "..." then
    let o ← g.assignment true
    let isLast ← sees (Ahead.symbol "]")
    pure ⟨isLast && [.value, .parts].contains o.target, o.pending⟩
  else Part.ofOperand <$> g.assignment true

/-- A word alone is a property of an object, and so is a word with a default in a pattern. -/
def shorthand (g : Grammar) : Parse Part := do
  let w ← wordThat isReference
  require (w != "static")
  let assignable := isBindable w
  if ← takesSymbol "=" then
    let _ ← g.value true
    pure ⟨assignable, true⟩
  else pure ⟨assignable, false⟩

def property (g : Grammar) : Parse Part := do
  if ← takesSymbol "..." then
    let o ← g.assignment true
    let isLast ← sees (Ahead.symbol "\x7d")
    pure ⟨isLast && o.target = .value, o.pending⟩
  else if ← sees (Ahead.anyWord.before (Ahead.symbolIn [",", "=", "\x7d"])) then g.shorthand
  else
    let _ ← g.propertyKey
    symbol ":"
    Part.ofOperand <$> g.assignment true

/-! Members and calls. -/

def argument (g : Grammar) : Parse Unit := do
  let _ ← takesSymbol "..."
  let _ ← g.value true

def callArguments (g : Grammar) : Parse Unit := do
  symbol "("
  let _ ← commaList ")" g.argument

/-- Type arguments of an expression. They are none if an operand follows. -/
def instantiation (g : Grammar) : Parse Unit := do
  let _ ← g.typeArguments
  require (← sees (Ahead.or (Ahead.symbol "(") (Ahead.template.or Ahead.endsArguments)))

/-- A name behind a point. -/
def memberName : Parse (Option String) := do
  match ← next with
  | .word w => pure (some w)
  | .privateName _ => pure none
  | _ => refuse

/-- What stands behind the mark of an optional chain. -/
def chained (g : Grammar) : Parse Unit := do
  if ← takesSymbol "[" then
    let _ ← g.sequence true
    symbol "]"
  else if ← sees (Ahead.symbol "(") then g.callArguments
  else
    let _ ← memberName

/-- One more member, call or mark behind an expression; the callee of `new` is not called itself. -/
def subscript (g : Grammar) (calls : Bool) (o : Operand) : Parse (Option Operand) := do
  let start := o.expression.offset
  if ← takesSymbol "." then
    let e ← settle o
    pure (some ⟨.member e (← memberName), .value, false⟩)
  else if ← takesSymbol "[" then
    let e ← settle o
    let _ ← g.sequence true
    symbol "]"
    pure (some ⟨.member e none, .value, false⟩)
  else if ← takesSymbol "?." then
    let _ ← settle o
    require calls
    g.chained
    pure (some (.other start))
  else if ← sees (fun ts => calls && Ahead.symbol "(" ts) then
    let _ ← settle o
    g.callArguments
    pure (some (.other start))
  else if ← sees Ahead.template then
    let _ ← settle o
    g.templateLiteral true
    pure (some (.other start))
  else if ← takes ((Ahead.symbol "!").and Ahead.sameLine) then
    let _ ← settle o
    pure (some ⟨.other start, if o.target = .value then .value else .nothing, false⟩)
  else if ← sees (Ahead.symbol "<") then
    match ← attempt g.instantiation with
    | some () => do
      let e ← settle o
      pure (some (.plain (.instance e)))
    | none => pure none
  else pure none

def creation (g : Grammar) (primary : Parse Operand) : Parse Unit := do
  let _ ← settle (← grow (g.subscript false) (← primary))
  if ← sees (Ahead.symbol "(") then g.callArguments

/-! Expressions that stand by themselves. -/

/-- A single expression in brackets may be assigned to if it may be without them. -/
def parenthesized (g : Grammar) : Parse Operand := do
  let start ← offset
  symbol "("
  let os ← separated "," (g.assignment true)
  symbol ")"
  require (os.all fun o => !o.pending)
  match os with
  | [o] => pure ⟨.other start, if o.target = .value then .value else .nothing, false⟩
  | _ => pure (.other start)

/-- An imported module, or what is known of the module itself. -/
def importExpression (g : Grammar) : Parse Unit := do
  word "import"
  if ← takesSymbol "." then word "meta" else g.callArguments

/-- An expression that opens with a word, `new` apart. -/
def namedExpression (g : Grammar) : Parse Operand := do
  let start ← offset
  if ← sees (Ahead.word "import") then
    g.importExpression
    pure (.other start)
  else if ← takesWord "class" then
    let _ ← g.classRest false
    pure (.other start)
  else if ← takes (Ahead.wordIn ["true", "false"]) then pure (.plain (.boolean start))
  else if ← takes (Ahead.wordIn ["null", "this"]) then pure (.other start)
  else if ← takes ((Ahead.word "super").before (Ahead.symbolIn [".", "[", "("])) then
    pure (.other start)
  else
    require !(← sees (Ahead.words "async" "function"))
    let w ← wordThat isReference
    require (w != "static")
    pure ⟨.name w start, if isBindable w then .value else .nothing, false⟩

/-- An expression that opens with a symbol. -/
def bracketedExpression (g : Grammar) : Parse Operand := do
  let start ← offset
  if ← takesSymbol "[" then Part.whole start <$> commaList "]" g.element
  else if ← takesSymbol "\x7b" then Part.whole start <$> commaList "\x7d" g.property
  else if ← g.decorators then
    word "class"
    let _ ← g.classRest false
    pure (.other start)
  else g.parenthesized

def literal : Parse Operand := do
  let start ← offset
  match ← next with
  | .string s => pure (.plain (.string s start))
  | .number n => pure (.plain (.number n start))
  | .bigint _ => pure (.plain (.bigint start))
  | .regex => pure (.other start)
  | _ => refuse

/-- A private name is an operand only of `in`. -/
def privateOperand : Ahead := Ahead.privateName.before (Ahead.word "in")

def simpleExpression (g : Grammar) : Parse Operand := do
  let start ← offset
  if ← sees Ahead.anyWord then g.namedExpression
  else if ← sees (Ahead.symbolIn ["(", "[", "\x7b", "@"]) then g.bracketedExpression
  else if ← sees Ahead.template then
    g.templateLiteral false
    pure (.other start)
  else if ← takes privateOperand then pure (.other start)
  else literal

/-- So many words `new`, one behind the other, and what they create. -/
def creations (g : Grammar) (start : Nat) : Nat → Parse Operand
  | 0 => g.simpleExpression
  | n + 1 => do
    word "new"
    g.creation (g.creations start n)
    pure (.other start)

def primary (g : Grammar) : Parse Operand := fun ts =>
  let news := (ts.takeWhile (·.lexeme == .word "new")).length
  g.creations ((ts.head?.map Token.offset).getD 0) news ts

def leftHandRule (g : Grammar) : Parse Operand := do
  grow (g.subscript true) (← g.primary)

/-! Operators. -/

/-- A step of one, behind its operand. -/
def postfixed (g : Grammar) : Parse Operand := do
  let o ← g.leftHandRule
  if ← takes ((Ahead.symbolIn ["++", "--"]).and Ahead.sameLine) then
    require (o.target = .value)
    pure (.other o.expression.offset)
  else pure o

/-- An operator in front of its operand. -/
def signed (g : Grammar) (start : Nat) : Parse Operand := do
  pure (.plain (.unary (← settle (← g.unary)) start))

/-- A type in front of its operand. -/
def asserted (g : Grammar) : Parse Unit := do
  symbol "<"
  unless ← takesWord "const" do
    let _ ← g.type true
  symbol ">"
  let _ ← settle (← g.unary)

def isName : Expression → Bool
  | .name _ _ => true
  | _ => false

def unaryRule (g : Grammar) : Parse Operand := do
  let start ← offset
  if ← takes (Ahead.symbolIn signOperators) then g.signed start
  else if ← takes (Ahead.wordIn wordOperators) then g.signed start
  else if ← takesWord "delete" then
    let e ← settle (← g.unary)
    require !(isName e)
    pure (.plain (.unary e start))
  else if ← takes (Ahead.symbolIn ["++", "--"]) then
    require ((← g.unary).target = .value)
    pure (.other start)
  else if ← takesWord "await" then
    let _ ← settle (← g.unary)
    pure (.other start)
  else if ← sees (Ahead.symbol "<") then
    g.asserted
    pure (.other start)
  else g.postfixed

def isUnary : Expression → Bool
  | .unary _ _ => true
  | _ => false

/-- A chain of operators: those so far, and whether the last operand has a sign. -/
structure Chain where
  operators : List String
  unary : Bool

/-- One more operator of a chain with its operand. No sign stands in front of a base of a power. -/
def link (g : Grammar) (allowIn : Bool) (c : Chain) : Parse (Option Chain) := do
  if ← takes ((Ahead.wordIn ["as", "satisfies"]).and Ahead.sameLine) then
    unless ← takesWord "const" do
      let _ ← g.type true
    pure (some ⟨c.operators ++ ["as"], false⟩)
  else
    match ← takesOperatorIn (binaryOperators ++ if allowIn then ["in"] else []) with
    | some o => do
      require !(o = "**" && c.unary)
      let e ← settle (← g.unary)
      pure (some ⟨c.operators ++ [o], isUnary e⟩)
    | none => pure none

def binary (g : Grammar) (allowIn : Bool) : Parse Operand := do
  let first ← g.unaryRule
  let chain ← grow (g.link allowIn) ⟨[], isUnary first.expression⟩
  if chain.operators.isEmpty then pure first
  else
    let e ← settle first
    require (unmixed chain.operators)
    pure (.other e.offset)

/-- The two branches of a choice, parted by a colon. -/
def branches (g : Grammar) (allowIn : Bool) (first : Parse Expression) : Parse Unit := do
  let _ ← first
  symbol ":"
  let _ ← g.value allowIn

/-- What stands behind the question mark of a choice. Brackets in front of a colon need not be
parameters with a result. -/
def choice (g : Grammar) (allowIn : Bool) : Parse Unit := do
  if ← sees (Ahead.symbol "(") then
    orElse (g.branches allowIn (g.value true)) (g.branches allowIn do settle (← g.leftHand))
  else g.branches allowIn (g.value true)

def conditional (g : Grammar) (allowIn : Bool) : Parse Operand := do
  let test ← g.binary allowIn
  if ← takesSymbol "?" then
    let e ← settle test
    g.choice allowIn
    pure (.other e.offset)
  else pure test

/-! Functions written with an arrow. -/

/-- How deep a token nests what follows it. -/
def depthAfter (depth : Nat) (l : Lexeme) : Nat :=
  match l with
  | .symbol s =>
    if ["(", "[", "\x7b"].contains s then depth + 1
    else if [")", "]", "\x7d"].contains s then depth - 1
    else depth
  | _ => depth

/-- The tokens behind the bracket that closes the one in front. -/
def behindBrackets : Nat → List Token → List Token
  | _, [] => []
  | depth, t :: ts =>
    if depthAfter depth t.lexeme = 0 then ts else behindBrackets (depthAfter depth t.lexeme) ts

/-- A word, brackets or type parameters that an arrow may follow. -/
def opensArrow : Ahead := fun ts =>
  Ahead.symbol "<" ts ||
  Ahead.anyWord ts && (Ahead.symbol "=>").and Ahead.sameLine ts.tail ||
  Ahead.symbol "(" ts && Ahead.symbolIn ["=>", ":"] (behindBrackets 0 ts)

def opensAsyncArrow : Ahead := fun ts =>
  Ahead.word "async" ts && Ahead.sameLine ts.tail && opensArrow ts.tail

/-- What stands up to an arrow, the arrow included. -/
def arrowHead (g : Grammar) : Parse Unit := do
  if ← sees Ahead.anyWord then
    let _ ← boundName
  else
    let _ ← g.typeParameters ["const"]
    symbol "("
    let _ ← commaList ")" (g.parameter true true)
    let _ ← g.resultAnnotation
  require (← sees Ahead.sameLine)
  symbol "=>"

/-- A function written with an arrow, up to the arrow. -/
def arrow (g : Grammar) : Parse Unit := do
  if ← takes opensAsyncArrow then g.arrowHead
  else
    require (← sees opensArrow)
    g.arrowHead

def assignmentRule (g : Grammar) (allowIn : Bool) : Parse Operand := do
  let start ← offset
  match ← attempt g.arrow with
  | some () => do
    require !(← sees (Ahead.symbol "\x7b"))
    let _ ← g.value allowIn
    pure (.other start)
  | none => do
    let left ← g.conditional allowIn
    if ← takesSymbol "=" then
      require ([.value, .parts].contains left.target)
      let _ ← g.value allowIn
      pure ⟨.other start, .default, false⟩
    else
      match ← takesOperatorIn compoundAssignments with
      | some _ => do
        require (left.target = .value && !left.pending)
        let _ ← g.value allowIn
        pure (.other start)
      | none => pure left

end Grammar
end ApiSurface.Source
