/-! Constructs that stand for no declaration, and the refusal of a tree that holds one. -/
namespace ApiSurface

inductive Construct
  | statement
  | namespaceBlock
  | globalAugmentation
  | usingDeclaration
  | superclassExpression
  | extendsExpression
  | privateMethod
  | privateProperty
  | indexSignature
  | callSignature
  | constructSignature
  | staticBlock
  | autoAccessor
  | destructuredVariable
  | destructuredParameter
  | restPattern
  | arrayPattern
  | objectPattern
  | computedMemberKey
  | computedKey
  | bigintKey
  | initializer
  | typeExpression
  deriving Repr, DecidableEq

/-- The words for a construct in messages. -/
def Construct.name : Construct → String
  | statement => "statement"
  | namespaceBlock => "namespace"
  | globalAugmentation => "global augmentation"
  | usingDeclaration => "using declaration"
  | superclassExpression => "superclass expression"
  | extendsExpression => "extends expression"
  | privateMethod => "private method"
  | privateProperty => "private property"
  | indexSignature => "index signature"
  | callSignature => "call signature"
  | constructSignature => "construct signature"
  | staticBlock => "static block"
  | autoAccessor => "auto accessor"
  | destructuredVariable => "destructured variable"
  | destructuredParameter => "destructured parameter"
  | restPattern => "rest binding pattern"
  | arrayPattern => "array binding pattern"
  | objectPattern => "object binding pattern"
  | computedMemberKey => "computed member key"
  | computedKey => "computed key"
  | bigintKey => "bigint key"
  | initializer => "initializer"
  | typeExpression => "type expression"

/-- A construct, and how many characters stand before it. -/
structure Refusal where
  construct : Construct
  offset : Nat
  deriving Repr, DecidableEq

/-- A refusal in place of a result. -/
def refused {α : Type} (construct : Construct) (offset : Nat) : Except Refusal α :=
  .error ⟨construct, offset⟩

end ApiSurface
