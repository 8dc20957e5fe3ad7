import ApiSurface.Proofs.FramedReading

/-! Rules on framed tokens: keys, patterns and parameters. -/
namespace ApiSurface.Source
open Parse

/-! Places in what the rules read. -/

section Placed

def Operand.move (f : Nat → Nat) (o : Operand) : Operand :=
  { o with expression := o.expression.move f }

def Binding.move (f : Nat → Nat) : Binding → Binding
  | .name n => .name n
  | .array o => .array (f o)
  | .object o => .object (f o)

def ClassRest.move (f : Nat → Nat) (c : ClassRest) : ClassRest :=
  ⟨c.name, Placed.move f c.superclass, Placed.move f c.members⟩

instance : Placed Operand := ⟨Operand.move⟩
instance : Placed Binding := ⟨Binding.move⟩
instance : Placed ClassRest := ⟨ClassRest.move⟩

variable (f : Nat → Nat)

@[simp] theorem move_operand (o : Operand) : move f o = o.move f := rfl

@[simp] theorem Operand.move_mk (e : Expression) (t : Target) (pending : Bool) :
    Operand.move f ⟨e, t, pending⟩ = ⟨e.move f, t, pending⟩ := rfl
@[simp] theorem Operand.move_plain (e : Expression) :
    (Operand.plain e).move f = .plain (e.move f) := rfl
@[simp] theorem Operand.move_other (o : Nat) : (Operand.other o).move f = .other (f o) := rfl
@[simp] theorem Operand.expression_move (o : Operand) :
    (o.move f).expression = o.expression.move f := rfl
@[simp] theorem Operand.target_move (o : Operand) : (o.move f).target = o.target := rfl
@[simp] theorem Operand.pending_move (o : Operand) : (o.move f).pending = o.pending := rfl

end Placed

/-- Two grammars whose rules read the same, the second in a frame. Statements and items may look
ahead at their end, so they have to be nested. -/
structure Agree (F : Frame) (g g' : Grammar) : Prop where
  type (c : Bool) (s : List Bracket) : Follows F false s s (g.type c) (g'.type c)
  typeOperand (c : Bool) (s : List Bracket) :
    Follows F false s s (g.typeOperand c) (g'.typeOperand c)
  assignment (i : Bool) (s : List Bracket) :
    Follows F false s s (g.assignment i) (g'.assignment i)
  unary (s : List Bracket) : Follows F false s s g.unary g'.unary
  leftHand (s : List Bracket) : Follows F false s s g.leftHand g'.leftHand
  binding (d : Bool) (s : List Bracket) : Follows F false s s (g.binding d) (g'.binding d)
  classRest (a : Bool) (s : List Bracket) :
    Follows F false s s (g.classRest a) (g'.classRest a)
  statement (f : Flow) {s : List Bracket} (h : F.Nested s) :
    Follows F false s s (g.statement f) (g'.statement f)
  item {s : List Bracket} (h : F.Nested s) : Follows F false s s g.item g'.item

namespace Ahead

@[simp] theorem local_startsName : startsName.Local := fun F ts h => by
  simp only [startsName, local_symbolIn _ h, local_privateName h, local_anyWord h, local_string h,
    local_number h]

@[simp] theorem local_modifiesParameter : Grammar.modifiesParameter.Local := by
  simp [Grammar.modifiesParameter]

@[simp] theorem plain_modifiesParameter : Grammar.modifiesParameter.Plain := by
  simp [Grammar.modifiesParameter]

@[simp] theorem local_modifier (ws : List String) : (modifier ws).Local := by simp [modifier]

@[simp] theorem plain_modifier (ws : List String) : (modifier ws).Plain := by simp [modifier]

end Ahead

namespace Follows

variable {F : Frame} {s : List Bracket} {g g' : Grammar} (h : Agree F g g')

theorem settle {o : Operand} :
    Follows F false s s (Grammar.settle o) (Grammar.settle (move F.move o)) :=
  bind require fun _ => pure

include h

theorem value (allowIn : Bool) : Follows F false s s (g.value allowIn) (g'.value allowIn) :=
  bind (h.assignment allowIn s) fun _ => settle

theorem sequence (allowIn : Bool) :
    Follows F false s s (g.sequence allowIn) (g'.sequence allowIn) :=
  bind offset fun _ => bind (separated rfl (value h allowIn)) fun
    | [] => pure
    | [_] => pure
    | _ :: _ :: _ => pure

theorem annotated (c : Bool) : Follows F false s s ( g.annotation c) ( g'.annotation c) :=
  given (by simp) (bind (symbol rfl) fun _ => h.type c s)

theorem decorator : Follows F false s s g.decorator g'.decorator :=
  bind (symbol rfl) fun _ => h.leftHand s

theorem decorators : Follows F false s s g.decorators g'.decorators :=
  bind (during (by simp) (decorator h)) fun ds => pureOf (by cases ds <;> rfl)

/-! Keys. -/

theorem literalMember {e : Expression} :
    Follows F false s s (g.literalMember e) (g'.literalMember (move F.move e)) :=
  bind (takesSymbol rfl) fun _ => ite (bind anyWord fun _ => pure) <|
    ifOpens rfl (bind (sequence h true) fun _ => bind (symbol rfl) fun _ => pure) pure

omit h in
theorem simpleKey : Follows F false s s Grammar.simpleKey Grammar.simpleKey :=
  bind offset fun _ => next fun
    | .word _ | .string _ | .number _ => .inl ⟨_, rfl, nofun, pure⟩
    | .privateName _ | .bigint _ | .regex | .template .. | .symbol _ => .inr ⟨rfl, rfl⟩

theorem signatureKey : Follows F false s s g.signatureKey g'.signatureKey :=
  ifOpens rfl (bind (value h false) fun _ => bind (symbol rfl) fun _ => pure) <|
    ifSees (by simp) (bind simpleKey fun _ => pure) <|
      bind simpleKey fun _ => bind (grow fun _ => literalMember h) fun _ => pure

theorem propertyKey : Follows F false s s g.propertyKey g'.propertyKey :=
  bind offset fun _ =>
    ifOpens rfl (bind (value h true) fun _ => bind (symbol rfl) fun _ => pure) <|
      ifTakes (by simp) pure (bind simpleKey fun _ => pure)

/-! Patterns. -/

theorem defaultValue (d : Bool) : Follows F false s s (g.defaultValue d) (g'.defaultValue d) :=
  bind (takesSymbol rfl) fun _ => ite (bind require fun _ => bind (value h true) fun _ => pure) pure

theorem arrayBinding (d : Bool) : Follows F false s s (g.arrayBinding d) (g'.arrayBinding d) :=
  ifSees (by simp) pure <| bind (takesSymbol rfl) fun _ =>
    ite (bind (h.binding d s) fun _ => bind (sees (by simp)) fun _ => require)
      (bind (h.binding d s) fun _ => defaultValue h d)

theorem objectBinding (d : Bool) :
    Follows F false s s (g.objectBinding d) (g'.objectBinding d) :=
  bind (takesSymbol rfl) fun _ => ite
    (bind boundName fun _ => bind (sees (by simp)) fun _ => require) <|
    ifSees (by simp) (bind boundName fun _ => defaultValue h d) <|
      bind (propertyKey h) fun _ => bind (symbol rfl) fun _ => bind (h.binding d s) fun _ =>
        defaultValue h d

theorem bindingRule (d : Bool) : Follows F false s s (g.bindingRule d) (g'.bindingRule d) :=
  bind offset fun _ =>
    ifOpens rfl (bind (commaList rfl (arrayBinding h d)) fun _ => pure) <|
      ifOpens rfl (bind (commaList rfl (objectBinding h d)) fun _ => pure) <|
        bind boundName fun _ => pure

/-! Parameters. -/

theorem parameter (c d : Bool) : Follows F false s s (g.parameter c d) (g'.parameter c d) :=
  bind (decorators h) fun _ => bind (takesSymbol rfl) fun _ =>
    ite (bind offset fun _ => bind (h.binding d s) fun b => bind (annotated h c) fun _ =>
        bind (sees (by simp)) fun _ => bind require fun _ => match b with
          | .name _ | .array _ | .object _ => pureOf (by simp))
      (bind (sees (by simp)) fun _ => bind require fun _ => bind (h.binding d s) fun b =>
        bind (takesSymbol rfl) fun _ => bind (annotated h c) fun _ =>
          bind (defaultValue h d) fun _ => match b with
          | .name _ | .array _ | .object _ => pureOf (by simp))

theorem parameters (c : Bool) : Follows F false s s (g.parameters c) (g'.parameters c) :=
  bind (symbol rfl) fun _ => commaList rfl (parameter h c false)

end Follows
end ApiSurface.Source
