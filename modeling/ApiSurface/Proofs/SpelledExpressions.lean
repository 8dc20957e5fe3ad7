import ApiSurface.Proofs.SpelledTypes

/-! The rules for expressions keep the spelling of the tokens they read. -/
namespace ApiSurface.Source
namespace Keeps

variable {g : Grammar} (h : g.Keeps)

include h

/-! Literals with parts. -/

theorem templateRest (tagged : Bool) : Keeps (fun _ => True) (g.templateRest tagged) :=
  after (grow (P := fun _ => True) (fun
    | true, _ => pureNone
    | false, _ => after (sequence h true) fun _ => after next fun
      | .template _ false _ _ => after require fun _ => pureSome trivial
      | .template _ true _ _ => refuse
      | .word _ | .privateName _ | .string _ | .number _ | .bigint _ | .regex | .symbol _ => refuse)
    trivial) fun _ => pure trivial

theorem templateLiteral (tagged : Bool) : Keeps (fun _ => True) (g.templateLiteral tagged) :=
  after next fun
    | .template _ true true _ => after require fun _ => pure trivial
    | .template _ true false _ => after require fun _ => templateRest h tagged
    | .template _ false _ _ => refuse
    | .word _ | .privateName _ | .string _ | .number _ | .bigint _ | .regex | .symbol _ => refuse

theorem element : Keeps (fun _ => True) g.element :=
  after sees fun _ => ite (pure trivial) <| after takesSymbol fun _ => ite
    (after (h.assignment true) fun _ => after sees fun _ => pure trivial)
    (map (h.assignment true) fun _ _ => trivial)

theorem shorthand : Keeps (fun _ => True) g.shorthand :=
  after wordThat fun _ => after require fun _ => after takesSymbol fun _ =>
    ite (after (value h true) fun _ => pure trivial) (pure trivial)

theorem property : Keeps (fun _ => True) g.property :=
  after takesSymbol fun _ => ite
    (after (h.assignment true) fun _ => after sees fun _ => pure trivial) <|
    after sees fun _ => ite (shorthand h) <| after (propertyKey h) fun _ => after symbol fun _ =>
      map (h.assignment true) fun _ _ => trivial

/-! Members and calls. -/

theorem argument : Keeps (fun _ => True) g.argument :=
  after takesSymbol fun _ => after (value h true) fun _ => pure trivial

theorem callArguments : Keeps (fun _ => True) g.callArguments :=
  after symbol fun _ => after (commaList (argument h)) fun _ => pure trivial

theorem instantiation : Keeps (fun _ => True) g.instantiation :=
  after (typeArguments h) fun _ => after sees fun _ => require

omit h in
theorem memberName : Keeps (fun w? => ∀ w ∈ w?, IsName w) Grammar.memberName :=
  bind next fun
    | .word _, hw => pureSome hw
    | .privateName _, _ => pureNone
    | .string _, _ | .number _, _ | .bigint _, _ | .regex, _ | .template .., _ | .symbol _, _ =>
      refuse

theorem chained : Keeps (fun _ => True) g.chained :=
  after takesSymbol fun _ => ite (after (sequence h true) fun _ => symbol) <|
    after sees fun _ => ite (callArguments h) (after memberName fun _ => pure trivial)

theorem subscript (calls : Bool) {o : Operand} (ho : o.Spelled) :
    Keeps (fun o? => ∀ o ∈ o?, o.Spelled) (g.subscript calls o) :=
  after takesSymbol fun _ => ite
    (bind (settle ho) fun _ he => bind memberName fun _ hw => pureSome (.member he hw)) <|
  after takesSymbol fun _ => ite
    (bind (settle ho) fun _ he => after (sequence h true) fun _ => after symbol fun _ =>
      pureSome (.member he nofun)) <|
  after takesSymbol fun _ => ite
    (after (settle ho) fun _ => after require fun _ => after (chained h) fun _ =>
      pureSome .other) <|
  after sees fun _ => ite
    (after (settle ho) fun _ => after (callArguments h) fun _ => pureSome .other) <|
  after sees fun _ => ite
    (after (settle ho) fun _ => after (templateLiteral h true) fun _ => pureSome .other) <|
  after takes fun _ => ite (after (settle ho) fun _ => pureSome .other) <|
  after sees fun _ => ite (after (attempt (instantiation h)) fun
    | some _ => bind (settle ho) fun _ he => pureSome (.instance he)
    | none => pureNone) pureNone

theorem creation {primary : Parse Operand} (hp : Keeps Operand.Spelled primary) :
    Keeps (fun _ => True) (g.creation primary) :=
  bind hp fun _ ho => bind (grow (fun _ => subscript h false) ho) fun _ ho =>
    after (settle ho) fun _ => after sees fun _ => ite (callArguments h) (pure trivial)

/-! Expressions that stand by themselves. -/

theorem parenthesized : Keeps Operand.Spelled g.parenthesized :=
  after offset fun _ => after symbol fun _ => after (separated (h.assignment true)) fun os =>
    after symbol fun _ => after require fun _ => match os with
      | [] | [_] | _ :: _ :: _ => pure .other

theorem importExpression : Keeps (fun _ => True) g.importExpression :=
  after word fun _ => after takesSymbol fun _ => ite word (callArguments h)

theorem namedExpression : Keeps Operand.Spelled g.namedExpression :=
  after offset fun _ => after sees fun _ => ite
    (after (importExpression h) fun _ => pure .other) <|
    after takesWord fun _ => ite (after (h.classRest false) fun _ => pure .other) <|
    after takes fun _ => ite (pure .boolean) <| after takes fun _ => ite (pure .other) <|
    after takes fun _ => ite (pure .other) <| after sees fun _ => after require fun _ =>
      bind wordThat fun _ hw => after require fun _ => pure (.name hw)

theorem bracketedExpression : Keeps Operand.Spelled g.bracketedExpression :=
  after offset fun _ => after takesSymbol fun _ => ite
    (map (commaList (element h)) fun _ _ => .other) <|
    after takesSymbol fun _ => ite (map (commaList (property h)) fun _ _ => .other) <|
    after (decorators h) fun _ => ite
      (after word fun _ => after (h.classRest false) fun _ => pure .other) (parenthesized h)

omit h in
theorem literal : Keeps Operand.Spelled Grammar.literal :=
  after offset fun _ => bind next fun
    | .string _, _ => pure .string
    | .number _, hn => pure (.number hn)
    | .bigint _, _ => pure .bigint
    | .regex, _ => pure .other
    | .word _, _ | .privateName _, _ | .template .., _ | .symbol _, _ => refuse

theorem simpleExpression : Keeps Operand.Spelled g.simpleExpression :=
  after offset fun _ => after sees fun _ => ite (namedExpression h) <|
    after sees fun _ => ite (bracketedExpression h) <|
    after sees fun _ => ite (after (templateLiteral h false) fun _ => pure .other) <|
    after takes fun _ => ite (pure .other) literal

theorem creations (start n : Nat) : Keeps Operand.Spelled (g.creations start n) := by
  induction n with
  | zero => exact simpleExpression h
  | succ n ih => exact after word fun _ => after (creation h ih) fun _ => pure .other

theorem primary : Keeps Operand.Spelled g.primary := fun _ _ _ e hts =>
  creations h _ _ e hts

theorem leftHandRule : Keeps Operand.Spelled g.leftHandRule :=
  bind (primary h) fun _ ho => grow (fun _ => subscript h true) ho

/-! Operators. -/

theorem postfixed : Keeps Operand.Spelled g.postfixed :=
  bind (leftHandRule h) fun _ ho => after takes fun _ => ite
    (after require fun _ => pure .other) (pure ho)

theorem signed (start : Nat) : Keeps Operand.Spelled (g.signed start) :=
  bind h.unary fun _ ho => bind (settle ho) fun _ he => pure (.unary he)

theorem asserted : Keeps (fun _ => True) g.asserted := by
  refine after symbol fun _ => after takesWord fun _ => ite ?_ (after (h.type true) fun _ => ?_)
  all_goals
    refine after symbol fun _ => bind h.unary fun _ ho => after (settle ho) fun _ => pure trivial

theorem unaryRule : Keeps Operand.Spelled g.unaryRule :=
  after offset fun _ => after takes fun _ => ite (signed h _) <|
    after takes fun _ => ite (signed h _) <|
    after takesWord fun _ => ite
      (bind h.unary fun _ ho => bind (settle ho) fun _ he => after require fun _ =>
        pure (.unary he)) <|
    after takes fun _ => ite (after h.unary fun _ => after require fun _ => pure .other) <|
    after takesWord fun _ => ite
      (bind h.unary fun _ ho => after (settle ho) fun _ => pure .other) <|
    after sees fun _ => ite (after (asserted h) fun _ => pure .other) (postfixed h)

theorem link (allowIn : Bool) (c : Grammar.Chain) : Keeps (fun _ => True) (g.link allowIn c) :=
  after takes fun _ => ite
    (after takesWord fun _ => ite (pure trivial) (after (h.type true) fun _ => pure trivial)) <|
    after takesOperatorIn fun
      | some _ => after require fun _ => bind h.unary fun _ ho => after (settle ho) fun _ =>
        pure trivial
      | none => pure trivial

theorem binary (allowIn : Bool) : Keeps Operand.Spelled (g.binary allowIn) :=
  bind (unaryRule h) fun _ ho =>
    after (grow (P := fun _ => True) (fun c _ => (link h allowIn c).mono (by simp)) trivial)
      fun _ => ite (pure ho) (after (settle ho) fun _ => after require fun _ => pure .other)

theorem branches (allowIn : Bool) {first : Parse Expression}
    (hf : Keeps Expression.Spelled first) : Keeps (fun _ => True) (g.branches allowIn first) :=
  after hf fun _ => after symbol fun _ => after (value h allowIn) fun _ => pure trivial

theorem choice (allowIn : Bool) : Keeps (fun _ => True) (g.choice allowIn) :=
  after sees fun _ => ite
    (orElse (branches h allowIn (value h true))
      (branches h allowIn (bind h.leftHand fun _ => settle)))
    (branches h allowIn (value h true))

theorem conditional (allowIn : Bool) : Keeps Operand.Spelled (g.conditional allowIn) :=
  bind (binary h allowIn) fun _ ho => after takesSymbol fun _ => ite
    (after (settle ho) fun _ => after (choice h allowIn) fun _ => pure .other) (pure ho)

/-! Functions written with an arrow. -/

theorem arrowHead : Keeps (fun _ => True) g.arrowHead := by
  refine after sees fun _ => ite (after boundName fun _ => ?_)
    (after (typeParameters h _) fun _ => after symbol fun _ =>
      after (commaList (parameter h true true)) fun _ => after (annotatedResult h) fun _ => ?_)
  all_goals exact after sees fun _ => after require fun _ => symbol

theorem arrow : Keeps (fun _ => True) g.arrow :=
  after takes fun _ => ite (arrowHead h) <| after sees fun _ => after require fun _ => arrowHead h

theorem assignmentRule (allowIn : Bool) : Keeps Operand.Spelled (g.assignmentRule allowIn) :=
  after offset fun _ => after (attempt (arrow h)) fun
    | some _ => after sees fun _ => after require fun _ => after (value h allowIn) fun _ =>
      pure .other
    | none => bind (conditional h allowIn) fun _ ho => after takesSymbol fun _ => ite
      (after require fun _ => after (value h allowIn) fun _ => pure .other) <|
      after takesOperatorIn fun
        | some _ => after require fun _ => after (value h allowIn) fun _ => pure .other
        | none => pure ho

end Keeps
end ApiSurface.Source
