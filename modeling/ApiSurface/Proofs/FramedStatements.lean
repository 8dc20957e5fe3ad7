import ApiSurface.Proofs.FramedDeclarations

/-! The rules for statements on framed tokens. All of them have to be nested: behind its end a
statement may go on, as one does that governs another. -/
namespace ApiSurface.Source
open Parse

theorem Item.isStatement_move (f : Nat → Nat) (i : Item) :
    (i.move f).isStatement = i.isStatement := by cases i <;> rfl

theorem Grammar.catchable_move (f : Nat → Nat) (t : Option TypeTerm) :
    catchable (move f t) = catchable t := by
  cases t with
  | none => rfl
  | some t =>
    cases t with
    | keyword w => rfl
    | _ => rfl

namespace Ahead

theorem opensUsing_eq : Grammar.opensUsing = (word "using").before
    (sameLine.and (reference.and (wordIn ["of", "as", "satisfies"]).not)) := by
  funext ts
  simp only [Grammar.opensUsing, before, and, not, Bool.and_assoc]

@[simp] theorem local_opensUsing : Grammar.opensUsing.Local := by
  rw [opensUsing_eq]
  exact local_before (inner_word _) (local_word _)
    (local_and local_sameLine (local_and local_reference (local_not (local_wordIn _))))

@[simp] theorem plain_opensUsing : Grammar.opensUsing.Plain := by
  rw [opensUsing_eq]
  exact plain_before (plain_word _)

@[simp] theorem local_overAhead : Grammar.overAhead.Local := local_wordIn _

end Ahead

namespace Follows

variable {F : Frame} {last : Bool} {s : List Bracket} {g g' : Grammar} (h : Agree F g g')

include h

theorem block (f : Flow) : Follows F false s s (g.block f) (g'.block f) :=
  bind (symbol rfl) fun _ => bind (during (by simp) (h.statement f (F.nested_cons _ _))) fun _ =>
    symbol rfl

theorem body (hs : F.Nested s) (f : Flow) : Follows F false s s (g.body f) (g'.body f) :=
  bind (h.statement f hs) fun i => requireOf (i.isStatement_move F.move)

theorem condition : Follows F false s s g.condition g'.condition :=
  bind (symbol rfl) fun _ => bind (sequence h true) fun _ => symbol rfl

theorem ifRest (hs : F.Nested s) (f : Flow) : Follows F false s s (g.ifRest f) (g'.ifRest f) :=
  bind (condition h) fun _ => bind (body h hs f) fun _ => ifTakes (by simp) (body h hs f) pure

theorem whileRest (hs : F.Nested s) (f : Flow) :
    Follows F false s s (g.whileRest f) (g'.whileRest f) :=
  bind (condition h) fun _ => body h hs f.loop

theorem doRest (hs : F.Nested s) (f : Flow) : Follows F false s s (g.doRest f) (g'.doRest f) :=
  bind (body h hs f.loop) fun _ => bind word fun _ => bind (condition h) fun _ =>
    bind (takesSemicolon hs) fun _ => pure

/-! Loops over ranges and collections. -/

theorem forSteps (hs : F.Nested s) : Follows F false s s g.forSteps g'.forSteps := by
  refine bind (semicolon hs) fun _ => ifSees (by simp) ?_ (bind (sequence h true) fun _ => ?_)
  all_goals
    exact bind (semicolon hs) fun _ => ifSees (by simp) pure (bind (sequence h true) fun _ => pure)

theorem forOver (awaits : Bool) : Follows F false s s (g.forOver awaits) (g'.forOver awaits) :=
  ifTakes (by simp) (bind (value h true) fun _ => pure) <|
    bind word fun _ => bind require fun _ => bind (sequence h true) fun _ => pure

theorem forVariables (hs : F.Nested s) (awaits : Bool) :
    Follows F false s s (g.forVariables awaits) (g'.forVariables awaits) :=
  bind (attempt (bind (h.binding false s) fun _ => bind (sees (by simp)) fun _ => require)) fun
    | some () => forOver h awaits
    | none => bind (separated rfl (variableDeclaration h false)) fun _ => bind require fun _ =>
        forSteps h hs

theorem forExpression (hs : F.Nested s) (awaits : Bool) :
    Follows F false s s (g.forExpression awaits) (g'.forExpression awaits) :=
  bind (attempt (bind (h.leftHand s) fun _ => bind require fun _ =>
      bind (sees (by simp)) fun _ => require)) fun
    | some () => forOver h awaits
    | none => bind (sequence h false) fun _ => bind require fun _ => forSteps h hs

theorem forRest (hs : F.Nested s) (f : Flow) :
    Follows F false s s (g.forRest f) (g'.forRest f) := by
  have hround := F.nested_cons .round s
  refine bind takesWord fun awaits => bind (symbol rfl) fun _ =>
    ifSees (by simp) (bind require fun _ => bind (forSteps h hround) fun _ => ?_) <|
    ifTakes (by simp) (bind (forVariables h hround awaits) fun _ => ?_) <|
    bind (forExpression h hround awaits) fun _ => ?_
  all_goals exact bind (symbol rfl) fun _ => body h hs f.loop

/-! Choices and faults. -/

theorem caseLabel : Follows F false s s g.caseLabel g'.caseLabel := by
  refine bind takesWord fun _ => ite ?_ (bind word fun _ => bind (sequence h true) fun _ => ?_)
  all_goals exact bind (symbol rfl) fun _ => pure

theorem switchCase (hs : F.Nested s) (f : Flow) :
    Follows F false s s (g.switchCase f) (g'.switchCase f) :=
  bind (caseLabel h) fun _ => bind (during (by simp) (h.statement f.switch hs)) fun _ => pure

theorem switchRest (f : Flow) : Follows F false s s (g.switchRest f) (g'.switchRest f) :=
  bind (condition h) fun _ => bind (symbol rfl) fun _ =>
    bindFixed (during (by simp) (switchCase h (F.nested_cons _ _) f)) fun _ =>
      bind (symbol rfl) fun _ => require

theorem catchRest (f : Flow) : Follows F false s s (g.catchRest f) (g'.catchRest f) :=
  ifOpens rfl (bind (h.binding false _) fun _ => bind (annotated h true) fun t =>
      bind (requireOf (Grammar.catchable_move F.move t)) fun _ =>
        bind (symbol rfl) fun _ => block h f)
    (block h f)

theorem tryRest (f : Flow) : Follows F false s s (g.tryRest f) (g'.tryRest f) := by
  refine bind (block h f) fun _ => bind takesWord fun catches =>
    ite (bind (catchRest h f) fun _ => ?_) ?_
  all_goals
    refine bind takesWord fun finishes => ite (bind (block h f) fun _ => ?_) ?_
    all_goals exact require

theorem throwRest (hs : F.Nested s) : Follows F false s s g.throwRest g'.throwRest :=
  bind (sees (by simp)) fun _ => bind require fun _ => bind (sequence h true) fun _ =>
    endStatement (.inr hs)

omit h in
theorem jumpRest (hs : F.Nested s) (f : Flow) (around : Bool) :
    Follows F false s s (Grammar.jumpRest f around) (Grammar.jumpRest f around) :=
  ifSees (by simp) (bind anyWord fun _ => bind require fun _ => endStatement (.inr hs))
    (bind require fun _ => endStatement (.inr hs))

/-! Statements by their first words. -/

theorem expressionStatement (hs : F.Nested s) :
    Follows F false s s g.expressionStatement g'.expressionStatement :=
  bind (sequence h true) fun _ => endStatement (.inr hs)

theorem labelled (hs : F.Nested s) (f : Flow) :
    Follows F false s s (g.labelled f) (g'.labelled f) :=
  bind wordThat fun l => bind (symbol rfl) fun _ => bind require fun _ => body h hs (f.label l)

theorem plainStatement (hs : F.Nested s) (f : Flow) :
    Follows F false s s (g.plainStatement f) (g'.plainStatement f) :=
  ifSees (by simp) (block h f) <| ifTakes (by simp) (ifRest h hs f) <|
    ifTakes (by simp) (whileRest h hs f) <| ifTakes (by simp) (doRest h hs f) <|
    ifTakes (by simp) (forRest h hs f) <| ifTakes (by simp) (switchRest h f) <|
    ifTakes (by simp) (tryRest h f) <| ifTakes (by simp) (throwRest h hs) <|
    ifTakes (by simp) (jumpRest hs f _) <| ifTakes (by simp) (jumpRest hs f _) <|
    ifTakes (by simp) (endStatement (.inr hs)) <|
    ifSees (by simp) (labelled h hs f) (expressionStatement h hs)

theorem decoratedClass : Follows F false s s g.decoratedClass g'.decoratedClass :=
  bind takesWord fun _ => bind takesWord fun isAbstract => bind word fun _ =>
    classItem h isAbstract false

theorem statementRule (hs : F.Nested s) (f : Flow) :
    Follows F false s s (g.statementRule f) (g'.statementRule f) :=
  bind offset fun start => bind (takesSemicolon hs) fun _ => ite pure <|
    bind (decorators h) fun _ => ite (decoratedClass h) <|
    ifTakes (by simp) (usingRest h (.inr hs) start) <|
    ifTakes (by simp) (bind word fun _ => usingRest h (.inr hs) start) <|
    bind (declaration h (.inr hs)) fun
      | some _ => pure
      | none => bind (plainStatement h hs f) fun _ => pure

end Follows
end ApiSurface.Source
