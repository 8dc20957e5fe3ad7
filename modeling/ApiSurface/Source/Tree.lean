/-! Syntax trees of declaration files. What no declaration depends on, such as the operands of an
operator, is not kept. Offsets count the characters of the text before a construct. -/
namespace ApiSurface.Source

/-- A value, as far as names and literals in it matter. -/
inductive Expression
  | name (text : String) (offset : Nat)
  | string (value : String) (offset : Nat)
  | number (spelling : String) (offset : Nat)
  | boolean (offset : Nat)
  | bigint (offset : Nat)
  /-- A member of a value; without a name if it is computed or private. -/
  | member (object : Expression) (property : Option String)
  | unary (operand : Expression) (offset : Nat)
  /-- A value with type arguments. -/
  | instance (value : Expression)
  | other (offset : Nat)
  deriving Repr, DecidableEq

namespace Expression

def offset : Expression → Nat
  | name _ o | string _ o | number _ o | boolean o | bigint o | unary _ o | other o => o
  | member e _ | .instance e => e.offset

/-- The names of a chain of members that starts at a name. -/
def path? : Expression → Option (List String)
  | name n _ => some [n]
  | member e (some p) => e.path?.map (· ++ [p])
  | _ => none

/-- A value without its type arguments. -/
def bare : Expression → Expression
  | .instance e => e
  | e => e

end Expression

/-- The key of a member. -/
structure Key where
  computed : Bool
  value : Expression
  deriving Repr, DecidableEq

/-- How a mapped type sets a modifier. -/
inductive Mark
  | plain
  | plus
  | minus
  deriving Repr, DecidableEq

inductive TypeOperator
  | keyof
  | unique
  | readonly
  deriving Repr, DecidableEq

mutual

inductive TypeTerm
  /-- A type that has a word of its own. -/
  | keyword (word : String)
  | this
  | string (value : String)
  | number (spelling : String)
  | bigint (spelling : String)
  | boolean (value : Bool)
  /-- A template literal: its first chunk, then a type and a chunk for every hole. -/
  | template (first : String) (holes : List Hole)
  | reference (path : List String) (arguments : List TypeTerm)
  /-- The type of a value. -/
  | query (path : List String) (arguments : List TypeTerm)
  /-- The type of a module, or of something in it. -/
  | queryImport (source : String) (path : List String) (own arguments : List TypeTerm)
  /-- A type of another module. -/
  | imported (source : String) (path : List String) (arguments : List TypeTerm)
  | function (generics : List TypeParameter) (parameters : List Parameter) (result : TypeTerm)
  | constructor (isAbstract : Bool) (generics : List TypeParameter) (parameters : List Parameter)
      (result : TypeTerm)
  | object (members : List Signature)
  | array (element : TypeTerm)
  | tuple (elements : List TupleElement)
  | optional (type : TypeTerm)
  | rest (type : TypeTerm)
  | union (types : List TypeTerm)
  | intersection (types : List TypeTerm)
  | conditional (checked bound yes no : TypeTerm)
  | infer (name : String) (bound : Option TypeTerm)
  | parenthesized (type : TypeTerm)
  | operator (operator : TypeOperator) (type : TypeTerm)
  | indexed (object index : TypeTerm)
  | mapped (readonly : Option Mark) (name : String) (keys : TypeTerm) (renamed : Option TypeTerm)
      (optional : Option Mark) (value : Option TypeTerm)
  | predicate (asserts : Bool) (subject : String) (type : Option TypeTerm)

inductive Hole
  | mk (type : TypeTerm) (chunk : String)

inductive TypeParameter
  | mk (modifiers : List String) (name : String) (bound default : Option TypeTerm)

inductive Parameter
  | named (name : String) (optional : Bool) (type : Option TypeTerm)
  | rest (name : String) (type : Option TypeTerm)
  | restPattern (offset : Nat)
  | arrayPattern (offset : Nat)
  | objectPattern (offset : Nat)

/-- A member of an interface or an object type. -/
inductive Signature
  | property (readonly : Bool) (key : Key) (optional : Bool) (type : Option TypeTerm)
  | method (key : Key) (optional : Bool) (generics : List TypeParameter)
      (parameters : List Parameter) (result : Option TypeTerm)
  | getter (key : Key) (type : Option TypeTerm)
  | setter (key : Key) (parameter : Parameter)
  | call (generics : List TypeParameter) (parameters : List Parameter) (result : Option TypeTerm)
      (offset : Nat)
  | construct (generics : List TypeParameter) (parameters : List Parameter)
      (result : Option TypeTerm) (offset : Nat)
  | index (readonly : Bool) (name : String) (keys : TypeTerm) (type : Option TypeTerm)
      (offset : Nat)

inductive TupleElement
  | plain (type : TypeTerm)
  | labelled (rest : Bool) (label : String) (optional : Bool) (type : TypeTerm)

end

inductive ClassMember
  | constructor (key : Key) (parameters : List Parameter)
  | method (key : Key) (parameters : List Parameter) (result : Option TypeTerm)
  | field (key : Key) (type : Option TypeTerm) (value : Option Expression)
  | empty
  | privateMethod (offset : Nat)
  | privateField (offset : Nat)
  | index (offset : Nat)
  | staticBlock (offset : Nat)
  | accessor (offset : Nat)

/-- What a variable statement declares in one place. -/
inductive Variable
  | named (name : String) (type : Option TypeTerm) (value : Option Expression)
  | pattern (offset : Nat)

/-- A base of an interface. -/
abbrev Base := Expression

/-- A top-level item. A name is missing where a default export has none. -/
inductive Item
  | enumeration (name : String) (values : List String)
  | classType (name : Option String) (superclass : Option Expression) (members : List ClassMember)
  | interface (name : String) (bases : List Base) (members : List Signature)
  | function (name : Option String) (parameters : List Parameter)
  | typeAlias (name : String) (type : TypeTerm)
  | variableList (list : List Variable)
  | namespaceBlock (offset : Nat)
  | augmentation (offset : Nat)
  | using (offset : Nat)
  | statement (offset : Nat)
  /-- An import or an export that declares nothing, or an empty statement. -/
  | silent

end ApiSurface.Source
