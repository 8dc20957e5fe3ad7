import ApiSurface.Source.Parse

/-! Operators. Angle brackets are tokens of their own, and those that touch spell an operator
together. -/
namespace ApiSurface.Source

/-- Operators between two operands. -/
def binaryOperators : List String := [
  "??", "||", "&&", "|", "^", "&", "==", "!=", "===", "!==", "<", ">", "<=", ">=", "<<", ">>",
  ">>>", "+", "-", "*", "/", "%", "**", "instanceof"]

/-- Assignments that compute with the old value. -/
def compoundAssignments : List String := [
  "+=", "-=", "*=", "/=", "%=", "**=", "<<=", ">>=", ">>>=", "&=", "|=", "^=", "&&=", "||=", "??="]

def signOperators : List String := ["!", "~", "+", "-"]

def wordOperators : List String := ["typeof", "void"]

/-- The operator that angle brackets spell with what touches them, and how many tokens it takes. -/
def angleOperator (bracket : String) (longest : Nat) (ts : List Token) : String × Nat :=
  let touching := ts.takeWhile fun t => t.glued && t.lexeme == .symbol bracket
  let same := min touching.length (longest - 1)
  let spelled := String.join (List.replicate (same + 1) bracket)
  if (Ahead.glued.and (Ahead.symbol "=")) (ts.drop same) then (spelled ++ "=", same + 2)
  else (spelled, same + 1)

/-- The operator that comes next, and how many tokens it takes. -/
def operatorAhead : List Token → Option (String × Nat)
  | [] => none
  | t :: ts =>
    match t.lexeme with
    | .symbol "<" => some (angleOperator "<" 2 ts)
    | .symbol ">" => some (angleOperator ">" 3 ts)
    | .symbol s => some (s, 1)
    | .word w => some (w, 1)
    | _ => none

/-- One of the given operators, if it comes next. -/
def takesOperatorIn (operators : List String) : Parse (Option String) := fun ts =>
  match operatorAhead ts with
  | some (o, n) => if operators.contains o then some (some o, ts.drop n) else some (none, ts)
  | none => some (none, ts)

/-- Coalescing may not be mixed with the other logical operators. -/
def unmixed (operators : List String) : Bool :=
  !(operators.contains "??" && (operators.contains "||" || operators.contains "&&"))

end ApiSurface.Source
