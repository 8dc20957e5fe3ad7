import ApiSurface.Source.Parse
import ApiSurface.Source.Tree

/-! The nonterminals that contain one another, as one record. A rule takes the record and calls its
fields for what is nested inside it, so that every rule is a definition of its own; the depth of
nesting bounds how often the record is unfolded. -/
namespace ApiSurface.Source

/-- What may be assigned to an expression. -/
inductive Target
  | nothing
  /-- A value. -/
  | value
  /-- A value that is taken apart. -/
  | parts
  /-- An assignment, which inside a pattern gives a default. -/
  | default
  deriving Repr, DecidableEq

/-- An expression while its surroundings are unknown. It is pending if only a pattern may look like
it. -/
structure Operand where
  expression : Expression
  target : Target
  pending : Bool
  deriving Repr, DecidableEq

namespace Operand

/-- An expression that nothing may be assigned to. -/
def plain (e : Expression) : Operand := ⟨e, .nothing, false⟩

def other (offset : Nat) : Operand := plain (.other offset)

end Operand

/-- What a name is bound by. -/
inductive Binding
  | name (text : String)
  | array (offset : Nat)
  | object (offset : Nat)
  deriving Repr, DecidableEq

/-- What the statements around a statement let it leave. -/
structure Flow where
  inLoop : Bool
  breakable : Bool
  labels : List String
  deriving Repr, DecidableEq

def Flow.top : Flow := ⟨false, false, []⟩

/-- What stands behind the word `class`. -/
structure ClassRest where
  name : Option String
  superclass : Option Expression
  members : List ClassMember

structure Grammar where
  /-- A type; without leave, a conditional type has to stand in brackets. -/
  type : Bool → Parse TypeTerm
  /-- The operand of a type operator. -/
  typeOperand : Bool → Parse TypeTerm
  /-- An expression without a comma; without leave, the operator `in` has to stand in brackets. -/
  assignment : Bool → Parse Operand
  unary : Parse Operand
  /-- An expression that may be called or taken a member of. -/
  leftHand : Parse Operand
  /-- A name or a pattern; with leave, parts of it may have defaults. -/
  binding : Bool → Parse Binding
  /-- What stands behind the word `class`, of an abstract class or another. -/
  classRest : Bool → Parse ClassRest
  statement : Flow → Parse Item
  /-- An item of a module or a namespace. -/
  item : Parse Item

namespace Grammar

/-- The grammar that reads nothing. -/
def empty : Grammar :=
  ⟨fun _ => .refuse, fun _ => .refuse, fun _ => .refuse, .refuse, .refuse, fun _ => .refuse,
    fun _ => .refuse, fun _ => .refuse, .refuse⟩

/-- The rules, the items and statements apart, for fewer than `n` tokens, and all for fewer than
`m`. -/
def within (g : Grammar) (n m : Nat) : Grammar where
  type c := (g.type c).within n
  typeOperand c := (g.typeOperand c).within n
  assignment i := (g.assignment i).within n
  unary := g.unary.within n
  leftHand := g.leftHand.within n
  binding d := (g.binding d).within n
  classRest a := (g.classRest a).within n
  statement f := (g.statement f).within m
  item := g.item.within m

/-- The rules for what is nested in the given tokens: it is shorter than these. -/
def nested (g : Grammar) (ts : List Token) : Grammar := g.within ts.length ts.length

/-- The rules for what is nested in a statement of the given tokens: it is shorter, unless the
statement is an expression. -/
def governed (g : Grammar) (ts : List Token) : Grammar := g.within (ts.length + 1) ts.length

/-- An expression that need not be a pattern. -/
def settle (o : Operand) : Parse Expression := do
  Parse.require !o.pending
  pure o.expression

/-- An expression without a comma. -/
def value (g : Grammar) (allowIn : Bool) : Parse Expression := do
  settle (← g.assignment allowIn)

/-- An expression; values parted by commas are none of its operands. -/
def sequence (g : Grammar) (allowIn : Bool) : Parse Expression := do
  let start ← Parse.offset
  match ← Parse.separated "," (g.value allowIn) with
  | [e] => pure e
  | _ => pure (.other start)

/-- A type behind a colon, if there is one. -/
def annotation (g : Grammar) (conditional : Bool) : Parse (Option TypeTerm) :=
  Parse.given (.symbol ":") do
    Parse.symbol ":"
    g.type conditional

def decorator (g : Grammar) : Parse Operand := do
  Parse.symbol "@"
  g.leftHand

/-- Decorators; whatever they decorate comes next. -/
def decorators (g : Grammar) : Parse Bool := do
  let ds ← Parse.during (.symbol "@") g.decorator
  pure !ds.isEmpty

end Grammar
end ApiSurface.Source
