import ApiSurface.Extraction
import ApiSurface.Proofs.SpelledClasses

/-! The rules for statements and modules keep the spelling of the tokens they read, and so does the
whole grammar, whatever its depth: what a text declares is spelled as a text may spell it. -/
namespace ApiSurface.Source
namespace Keeps

variable {g : Grammar} (h : g.Keeps)

include h

/-! Statements. -/

theorem block (f : Flow) : Keeps (fun _ => True) (g.block f) :=
  after symbol fun _ => after (during (h.statement f)) fun _ => symbol

theorem body (f : Flow) : Keeps (fun _ => True) (g.body f) :=
  after (h.statement f) fun _ => require

theorem condition : Keeps (fun _ => True) g.condition :=
  after symbol fun _ => after (sequence h true) fun _ => symbol

theorem ifRest (f : Flow) : Keeps (fun _ => True) (g.ifRest f) :=
  after (condition h) fun _ => after (body h f) fun _ => after takesWord fun _ =>
    ite (body h f) (pure trivial)

theorem whileRest (f : Flow) : Keeps (fun _ => True) (g.whileRest f) :=
  after (condition h) fun _ => body h f.loop

theorem doRest (f : Flow) : Keeps (fun _ => True) (g.doRest f) :=
  after (body h f.loop) fun _ => after word fun _ => after (condition h) fun _ =>
    after takesSymbol fun _ => pure trivial

theorem forSteps : Keeps (fun _ => True) g.forSteps := by
  refine after symbol fun _ => after sees fun _ => ite ?_ (after (sequence h true) fun _ => ?_)
  all_goals
    exact after symbol fun _ => after sees fun _ => ite (pure trivial)
      (after (sequence h true) fun _ => pure trivial)

theorem forOver (awaits : Bool) : Keeps (fun _ => True) (g.forOver awaits) :=
  after takesWord fun _ => ite (after (value h true) fun _ => pure trivial) <|
    after word fun _ => after require fun _ => after (sequence h true) fun _ => pure trivial

theorem forVariables (awaits : Bool) : Keeps (fun _ => True) (g.forVariables awaits) :=
  after (attempt (after (h.binding false) fun _ => after sees fun _ => require)) fun
    | some () => forOver h awaits
    | none => after (separated (variableDeclaration h false)) fun _ => after require fun _ =>
        forSteps h

theorem forExpression (awaits : Bool) : Keeps (fun _ => True) (g.forExpression awaits) :=
  after (attempt (after h.leftHand fun _ => after require fun _ => after sees fun _ =>
      require)) fun
    | some () => forOver h awaits
    | none => after (sequence h false) fun _ => after require fun _ => forSteps h

theorem forRest (f : Flow) : Keeps (fun _ => True) (g.forRest f) := by
  refine after takesWord fun awaits => after symbol fun _ => after sees fun _ =>
    ite (after require fun _ => after (forSteps h) fun _ => ?_) <|
    after takes fun _ => ite (after (forVariables h awaits) fun _ => ?_) <|
    after (forExpression h awaits) fun _ => ?_
  all_goals exact after symbol fun _ => body h f.loop

theorem caseLabel : Keeps (fun _ => True) g.caseLabel := by
  refine after takesWord fun _ => ite ?_ (after word fun _ => after (sequence h true) fun _ => ?_)
  all_goals exact after symbol fun _ => pure trivial

theorem switchCase (f : Flow) : Keeps (fun _ => True) (g.switchCase f) :=
  after (caseLabel h) fun _ => after (during (h.statement f.switch)) fun _ => pure trivial

theorem switchRest (f : Flow) : Keeps (fun _ => True) (g.switchRest f) :=
  after (condition h) fun _ => after symbol fun _ => after (during (switchCase h f)) fun _ =>
    after symbol fun _ => require

theorem catchRest (f : Flow) : Keeps (fun _ => True) (g.catchRest f) :=
  after takesSymbol fun _ => ite
    (after (h.binding false) fun _ => after (annotated h true) fun _ => after require fun _ =>
      after symbol fun _ => block h f) (block h f)

theorem tryRest (f : Flow) : Keeps (fun _ => True) (g.tryRest f) := by
  refine after (block h f) fun _ => after takesWord fun _ =>
    ite (after (catchRest h f) fun _ => ?_) ?_
  all_goals
    refine after takesWord fun _ => ite (after (block h f) fun _ => ?_) ?_
    all_goals exact require

theorem throwRest : Keeps (fun _ => True) g.throwRest :=
  after sees fun _ => after require fun _ => after (sequence h true) fun _ => endStatement

omit h in
theorem jumpRest (f : Flow) (around : Bool) : Keeps (fun _ => True) (Grammar.jumpRest f around) :=
  after sees fun _ => ite (after anyWord fun _ => after require fun _ => endStatement)
    (after require fun _ => endStatement)

theorem expressionStatement : Keeps (fun _ => True) g.expressionStatement :=
  after (sequence h true) fun _ => endStatement

theorem labelled (f : Flow) : Keeps (fun _ => True) (g.labelled f) :=
  after wordThat fun l => after symbol fun _ => after require fun _ => body h (f.label l)

theorem plainStatement (f : Flow) : Keeps (fun _ => True) (g.plainStatement f) :=
  after sees fun _ => ite (block h f) <| after takesWord fun _ => ite (ifRest h f) <|
    after takesWord fun _ => ite (whileRest h f) <| after takesWord fun _ => ite (doRest h f) <|
    after takesWord fun _ => ite (forRest h f) <| after takesWord fun _ => ite (switchRest h f) <|
    after takesWord fun _ => ite (tryRest h f) <| after takesWord fun _ => ite (throwRest h) <|
    after takesWord fun _ => ite (jumpRest f _) <| after takesWord fun _ => ite (jumpRest f _) <|
    after takesWord fun _ => ite endStatement <|
    after sees fun _ => ite (labelled h f) (expressionStatement h)

theorem decoratedClass : Keeps Item.Spelled g.decoratedClass :=
  after takesWord fun _ => after takesWord fun isAbstract => after word fun _ =>
    classItem h isAbstract false

theorem statementRule (f : Flow) : Keeps Item.Spelled (g.statementRule f) :=
  after offset fun start => after takesSymbol fun _ => ite (pure .silent) <|
    after (decorators h) fun _ => ite (decoratedClass h) <|
    after takes fun _ => ite (usingRest h start) <|
    after takes fun _ => ite (after word fun _ => usingRest h start) <|
    bind (declaration h) fun
      | some _, hi => pure (hi _ rfl)
      | none, _ => after (plainStatement h f) fun _ => pure .statement

/-! Imports. -/

omit h in
theorem listedName : Keeps (fun _ => True) Grammar.listedName :=
  after next fun
    | .word _ | .string _ => pure trivial
    | .privateName _ | .number _ | .bigint _ | .regex | .template .. | .symbol _ => refuse

omit h in
theorem listing : Keeps (fun _ => True) Grammar.listing :=
  after (during listedName) fun _ => ofTail fun ts _ _ e => by
    obtain ⟨_, -, e⟩ := Option.map_eq_some_iff.1 e
    cases e
    exact .inr rfl

omit h in
theorem listings : Keeps (fun _ => True) Grammar.listings :=
  after symbol fun _ => (commaList listing).mono fun _ _ => trivial

omit h in
theorem attributesRest : Keeps (fun _ => True) Grammar.attributesRest :=
  after takes fun _ => ite importAttributes (pure trivial)

omit h in
theorem source : Keeps (fun _ => True) Grammar.source :=
  after word fun _ => after string fun _ => after attributesRest fun _ => endStatement

omit h in
theorem importedValue : Keeps (fun _ => True) Grammar.importedValue :=
  after takes fun _ => ite
    (after symbol fun _ => after string fun _ => after symbol fun _ => endStatement)
    (after dotted fun _ => endStatement)

omit h in
theorem importEquals : Keeps (fun _ => True) Grammar.importEquals :=
  after boundName fun _ => after symbol fun _ => importedValue

omit h in
theorem importAll : Keeps (fun _ => True) Grammar.importAll :=
  after symbol fun _ => after word fun _ => after boundName fun _ => pure trivial

omit h in
theorem importNames (typesOnly : Bool) : Keeps (fun _ => True) (Grammar.importNames typesOnly) :=
  after sees fun _ => ite importAll (after listings fun _ => require)

omit h in
theorem importClause (typesOnly : Bool) :
    Keeps (fun _ => True) (Grammar.importClause typesOnly) :=
  after sees fun _ => ite
    (after boundName fun _ => after takesSymbol fun _ =>
      ite (after (importNames typesOnly) fun _ => source) source)
    (after (importNames typesOnly) fun _ => source)

omit h in
theorem importRest : Keeps (fun _ => True) Grammar.importRest :=
  after takes fun _ => ite (after attributesRest fun _ => endStatement) <|
    after takes fun typesOnly => after sees fun _ => ite importEquals <|
    after takes fun _ => ite (after importAll fun _ => source) <|
    after takes fun _ => importClause typesOnly

/-! Exports. -/

omit h in
theorem exportSome (typesOnly : Bool) : Keeps (fun _ => True) (Grammar.exportSome typesOnly) :=
  after listings fun _ => after require fun _ => after sees fun _ =>
    ite source (after require fun _ => endStatement)

omit h in
theorem exportAll : Keeps (fun _ => True) Grammar.exportAll :=
  after symbol fun _ => after takesWord fun _ => ite (after listedName fun _ => source) source

omit h in
theorem exportNames (typesOnly : Bool) : Keeps (fun _ => True) (Grammar.exportNames typesOnly) :=
  after sees fun _ => ite exportAll (exportSome typesOnly)

theorem exportDefault : Keeps Item.Spelled g.exportDefault :=
  after (decorators h) fun _ => ite
    (after takesWord fun isAbstract => after word fun _ => classItem h isAbstract true) <|
    after takes fun _ => ite (after word fun _ => classItem h true true) <|
    after takesWord fun _ => ite (classItem h false true) <|
    after takes fun _ => ite (after word fun _ => functionRest h true) <|
    after takesWord fun _ => ite (functionRest h true) <|
    after takes fun _ => ite (interfaceRest h) <|
    after (value h true) fun _ => after endStatement fun _ => pure .silent

theorem exportRest : Keeps Item.Spelled g.exportRest :=
  after takesWord fun _ => ite (exportDefault h) <|
    after sees fun _ => ite (after (exportNames false) fun _ => pure .silent) <|
    after takes fun _ => ite (after (exportNames true) fun _ => pure .silent) <|
    after takesWord fun _ => ite
      (after takes fun _ => after importEquals fun _ => pure .silent) <|
    after takesSymbol fun _ => ite
      (after (sequence h true) fun _ => after endStatement fun _ => pure .silent) <|
    after takesWord fun _ => ite
      (after word fun _ => after boundName fun _ => after endStatement fun _ => pure .silent) <|
    after (decorators h) fun _ => ite (decoratedClass h) <|
    bind (declaration h) fun
      | some _, hi => pure (hi _ rfl)
      | none, _ => refuse

/-! Items. -/

theorem decoratedExport : Keeps (fun _ => True) g.decoratedExport :=
  after (decorators h) fun _ => after require fun _ => after sees fun _ => require

theorem itemRule : Keeps Item.Spelled g.itemRule :=
  after (attempt (decoratedExport h)) fun _ => after takes fun _ => ite
    (after importRest fun _ => pure .silent) <|
    after takesWord fun _ => ite
      (bind (exportRest h) fun _ hi => after require fun _ => pure hi) (statementRule h .top)

end Keeps

theorem Grammar.keeps_within {g : Grammar} (h : g.Keeps) (n m : Nat) : (g.within n m).Keeps where
  type c := (h.type c).within n
  typeOperand c := (h.typeOperand c).within n
  assignment i := (h.assignment i).within n
  unary := h.unary.within n
  leftHand := h.leftHand.within n
  binding d := (h.binding d).within n
  classRest a := (h.classRest a).within n
  statement f := (h.statement f).within m
  item := h.item.within m

theorem keeps_grammar (n : Nat) : (grammar n).Keeps := by
  induction n with
  | zero => constructor <;> intros <;> exact .refuse
  | succ n ih =>
    have hnested (ts : List Token) : ((grammar n).nested ts).Keeps := Grammar.keeps_within ih _ _
    have hgoverned (ts : List Token) : ((grammar n).governed ts).Keeps :=
      Grammar.keeps_within ih _ _
    exact
      { type := fun c ts _ _ e => Keeps.typeRule (hnested ts) c e
        typeOperand := fun c ts _ _ e => Keeps.typeOperandRule (hnested ts) c e
        assignment := fun i ts _ _ e => Keeps.assignmentRule (hnested ts) i e
        unary := fun ts _ _ e => Keeps.unaryRule (hnested ts) e
        leftHand := fun ts _ _ e => Keeps.leftHandRule (hnested ts) e
        binding := fun d ts _ _ e => Keeps.bindingRule (hnested ts) d e
        classRest := fun a ts _ _ e => Keeps.classRestRule (hnested ts) a e
        statement := fun f ts _ _ e => Keeps.statementRule (hgoverned ts) f e
        item := fun ts _ _ e => Keeps.itemRule (hgoverned ts) e }

/-- In the items of a text all names and numbers are spelled as such. -/
theorem spelled_of_parse? {text : List Char} {items : List Item} (h : parse? text = some items) :
    ∀ i ∈ items, i.Spelled := by
  obtain ⟨ts, hts, h⟩ := Option.bind_eq_some_iff.1 h
  obtain ⟨⟨is, rest⟩, hread, rfl⟩ := Option.map_eq_some_iff.1 h
  exact (Keeps.during (keeps_grammar _).item hread (spelled_of_tokens? hts)).1

theorem spelled_of_itemsOf {text : List Char} {items : List Item} (h : itemsOf text = .ok items) :
    ∀ i ∈ items, i.Spelled := by
  unfold itemsOf at h
  split at h
  · next hparse =>
    cases h
    exact spelled_of_parse? hparse
  · cases h

end ApiSurface.Source
