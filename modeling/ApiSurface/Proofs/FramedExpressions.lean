import ApiSurface.Proofs.FramedTypes
import Mathlib.Data.List.TakeWhile

/-! The rules for expressions on framed tokens. -/
namespace ApiSurface.Source
open Parse

instance : Placed Grammar.Part := ⟨fun _ p => p⟩
instance : Unplaced Grammar.Part := ⟨fun _ _ => rfl⟩
instance : Placed Grammar.Chain := ⟨fun _ c => c⟩
instance : Unplaced Grammar.Chain := ⟨fun _ _ => rfl⟩

@[simp] theorem move_part (f : Nat → Nat) (p : Grammar.Part) : move f p = p := rfl
@[simp] theorem move_chain (f : Nat → Nat) (c : Grammar.Chain) : move f c = c := rfl

namespace Ahead

@[simp] theorem local_startsExpression : startsExpression.Local := local_lexeme _

@[simp] theorem local_endsArguments : endsArguments.Local := by
  intro F ts h
  cases ts with
  | nil => rw [Frame.lay_nil_of_guards h]
  | cons t ts => rfl

@[simp] theorem plain_signOperators : (symbolIn signOperators).Plain := asks_symbolIn (by decide)

@[simp] theorem local_privateOperand : Grammar.privateOperand.Local := by
  simp [Grammar.privateOperand]

@[simp] theorem plain_privateOperand : Grammar.privateOperand.Plain := by
  simp [Grammar.privateOperand]

end Ahead

/-! Runs of tokens that are no brackets. -/

section Plain

variable {F : Frame} {s : List Bracket} {ts taken : List Token}

theorem Spans.of_isPlain (h : ∀ t ∈ taken, t.lexeme.isPlain) (ts : List Token) :
    Spans s s (taken ++ ts) ts := by
  induction taken with
  | nil => exact .refl
  | cons t taken ih =>
    exact .cons (Lexeme.shift_of_isPlain (h t (by simp)) s) (ih fun t ht => h t (by simp [ht]))

theorem Frame.Sees.of_append (hs : F.Sees s (taken ++ ts)) (h : ∀ t ∈ taken, t.lexeme.isPlain) :
    F.Sees s ts := by
  induction taken with
  | nil => exact hs
  | cons t taken ih =>
    have ht := h t (by simp)
    exact ih (hs.tail (Lexeme.shift_of_isPlain ht s) (.inl (Lexeme.ne_of_isPlain ht)))
      fun t ht => h t (by simp [ht])

theorem Frame.lay_append (F : Frame) (taken ts : List Token) :
    F.lay (taken ++ ts) = taken.map (·.move F.move) ++ F.lay ts := by
  simp [Frame.lay]

theorem Frame.Guards.of_append (h : F.Guards (taken ++ ts))
    (hne : ∀ t ∈ taken, t.lexeme ≠ .symbol ";") : F.Guards ts := by
  induction taken with
  | nil => exact h
  | cons t taken ih => exact ih (h.tail (hne t (by simp))) fun t ht => hne t (by simp [ht])

/-- A run of tokens that end no statement ends before the end. -/
theorem takeWhile_lay {p : Token → Bool} (hp : ∀ f t, p (t.move f) = p t)
    (hne : ∀ t, p t → t.lexeme ≠ .symbol ";") (h : F.Guards ts) :
    (F.lay ts).takeWhile p = (ts.takeWhile p).map (·.move F.move) := by
  induction ts with
  | nil => rw [Frame.lay_nil_of_guards h]; rfl
  | cons t ts ih =>
    rw [Frame.lay_cons, List.takeWhile_cons, List.takeWhile_cons, hp]
    by_cases ht : p t
    · simp [ht, ih (h.tail (hne t ht))]
    · simp [ht]

end Plain

/-! Operators. -/

/-- A bracket that touches others of its kind. -/
def touches (bracket : String) (t : Token) : Bool := t.glued && t.lexeme == .symbol bracket

theorem lexeme_of_mem_take {bracket : String} {ts : List Token} {n : Nat} {t : Token}
    (hn : n ≤ (ts.takeWhile (touches bracket)).length) (ht : t ∈ ts.take n) :
    t.lexeme = .symbol bracket := by
  have hsplit := List.takeWhile_append_dropWhile (p := touches bracket) (l := ts)
  rw [← hsplit, List.take_append_of_le_length hn] at ht
  have htouches := List.mem_takeWhile_imp (List.mem_of_mem_take ht)
  exact eq_of_beq (Bool.and_eq_true _ _ ▸ htouches).2

theorem angleOperator_lay {F : Frame} {ts : List Token} {bracket : String}
    (hb : bracket ≠ ";") (longest : Nat) (h : F.Guards ts) :
    angleOperator bracket longest (F.lay ts) = angleOperator bracket longest ts := by
  have hlength : ((F.lay ts).takeWhile (touches bracket)).length =
      (ts.takeWhile (touches bracket)).length := by
    rw [takeWhile_lay (fun _ _ => rfl) (fun t ht e => ?_) h, List.length_map]
    simp [touches, e, hb.symm] at ht
  have hdrop {n : Nat} (hn : n ≤ (ts.takeWhile (touches bracket)).length) :
      (Ahead.glued.and (Ahead.symbol "=")) ((F.lay ts).drop n) =
        (Ahead.glued.and (Ahead.symbol "=")) (ts.drop n) := by
    have hlay : (F.lay ts).drop n = F.lay (ts.drop n) := by
      have hlt := Nat.le_trans hn (List.takeWhile_prefix _).length_le
      conv_lhs => rw [← List.take_append_drop n ts, Frame.lay_append]
      exact List.drop_left' (by rw [List.length_map, List.length_take_of_le hlt])
    have hguards : F.Guards (ts.drop n) := by
      rw [← List.take_append_drop n ts] at h
      exact h.of_append fun t ht => by simpa [lexeme_of_mem_take hn ht] using hb
    rw [hlay]
    exact Ahead.local_and Ahead.local_glued (Ahead.local_symbol _) hguards
  unfold touches at hlength hdrop
  simp only [angleOperator, hlength, hdrop (Nat.min_le_left _ _)]

/-- An operator is spelled by tokens that are no brackets. -/
theorem exists_of_angleOperator {bracket o : String} {longest n : Nat} {ts : List Token}
    (h : angleOperator bracket longest ts = (o, n)) (hb : (Lexeme.symbol bracket).isPlain) :
    ∃ taken rest, ts = taken ++ rest ∧ taken.length + 1 = n ∧
      ∀ t ∈ taken, t.lexeme.isPlain := by
  have hplain {m : Nat} (hm : m ≤ (ts.takeWhile (touches bracket)).length) :
      ∀ t ∈ ts.take m, t.lexeme.isPlain := fun t ht => by rwa [lexeme_of_mem_take hm ht]
  have hlength {m : Nat} (hm : m ≤ (ts.takeWhile (touches bracket)).length) :
      (ts.take m).length = m := by
    exact List.length_take_of_le (Nat.le_trans hm (List.takeWhile_prefix _).length_le)
  have hsame := Nat.min_le_left (ts.takeWhile (touches bracket)).length (longest - 1)
  unfold touches at hplain hlength hsame
  unfold angleOperator at h
  simp only at h
  generalize min _ (longest - 1) = same at h hsame
  split at h
  · next hequal =>
    cases h
    obtain ⟨t, rest, hdrop, hl⟩ := Ahead.symbol_iff.1 (Bool.and_eq_true _ _ ▸ hequal).2
    refine ⟨ts.take same ++ [t], rest, ?_, by simp [hlength hsame], ?_⟩
    · rw [List.append_assoc, List.singleton_append, ← hdrop, List.take_append_drop]
    · intro t' ht'
      rcases List.mem_append.1 ht' with ht' | ht'
      · exact hplain hsame t' ht'
      · rw [List.mem_singleton.1 ht', hl]
        rfl
  · cases h
    exact ⟨ts.take same, ts.drop same, (List.take_append_drop _ _).symm, by rw [hlength hsame],
      hplain hsame⟩

theorem exists_of_operatorAhead {ts : List Token} {o : String} {n : Nat}
    (h : operatorAhead ts = some (o, n)) (ho : (Lexeme.symbol o).isPlain) :
    ∃ taken rest, ts = taken ++ rest ∧ taken.length = n ∧ ∀ t ∈ taken, t.lexeme.isPlain := by
  cases ts with
  | nil => cases h
  | cons t ts =>
    have hangle {bracket : String} {longest : Nat} (hl : t.lexeme = .symbol bracket)
        (hb : (Lexeme.symbol bracket).isPlain)
        (e : angleOperator bracket longest ts = (o, n)) : ∃ taken rest,
          t :: ts = taken ++ rest ∧ taken.length = n ∧ ∀ t ∈ taken, t.lexeme.isPlain := by
      obtain ⟨taken, rest, rfl, hn, hplain⟩ := exists_of_angleOperator e hb
      refine ⟨t :: taken, rest, rfl, by simpa using hn, ?_⟩
      rintro t' (_ | ⟨_, ht'⟩)
      · rwa [hl]
      · exact hplain t' ht'
    simp only [operatorAhead] at h
    split at h
    · next hl => exact hangle hl rfl (Option.some.inj h)
    · next hl => exact hangle hl rfl (Option.some.inj h)
    · next hl =>
      cases h
      exact ⟨[t], ts, rfl, rfl, by simpa [hl] using ho⟩
    · next hl =>
      cases h
      exact ⟨[t], ts, rfl, rfl, by simp [hl, Lexeme.isPlain]⟩
    · cases h

theorem operatorAhead_lay {F : Frame} {ts : List Token} (h : F.Guards ts) :
    operatorAhead (F.lay ts) = operatorAhead ts := by
  cases ts with
  | nil => rw [Frame.lay_nil_of_guards h]
  | cons t ts =>
    have htail {x : String} (hl : t.lexeme = .symbol x) (hx : x ≠ ";") : F.Guards ts :=
      h.tail (by simpa [hl] using hx)
    simp only [Frame.lay_cons, operatorAhead, Token.lexeme_move]
    split
    · next hl => rw [angleOperator_lay (by decide) 2 (htail hl (by decide))]
    · next hl => rw [angleOperator_lay (by decide) 3 (htail hl (by decide))]
    · rfl
    · rfl
    · rfl

namespace Follows

variable {F : Frame} {s : List Bracket} {g g' : Grammar} (h : Agree F g g')

include h

/-! Literals with parts. -/

theorem templateRest (tagged : Bool) :
    Follows F false (.hole :: s) s (g.templateRest tagged) (g'.templateRest tagged) :=
  bind (growTo (fun finished : Bool => if finished then s else .hole :: s) (fun
    | true => pureTo rfl rfl
    | false => bind (sequence h true) fun _ => next fun
      | .template _ false true _ => .inl ⟨s, rfl, nofun, bind require fun _ => pureTo rfl rfl⟩
      | .template _ false false _ =>
        .inl ⟨.hole :: s, rfl, nofun, bind require fun _ => pureTo rfl rfl⟩
      | .template _ true _ _ => .inr ⟨rfl, rfl⟩
      | .word _ | .privateName _ | .string _ | .number _ | .bigint _ | .regex | .symbol _ =>
        .inr ⟨rfl, rfl⟩) rfl) fun _ => pure

theorem templateLiteral (tagged : Bool) :
    Follows F false s s (g.templateLiteral tagged) (g'.templateLiteral tagged) :=
  next fun
    | .template _ true true _ => .inl ⟨s, rfl, nofun, bind require fun _ => pure⟩
    | .template _ true false _ =>
      .inl ⟨.hole :: s, rfl, nofun, bind require fun _ => templateRest h tagged⟩
    | .template _ false _ _ => .inr ⟨rfl, rfl⟩
    | .word _ | .privateName _ | .string _ | .number _ | .bigint _ | .regex | .symbol _ =>
      .inr ⟨rfl, rfl⟩

theorem element : Follows F false s s g.element g'.element :=
  ifSees (by simp) pure <| bind (takesSymbol rfl) fun _ => ite
    (bind (h.assignment true s) fun _ => bind (sees (by simp)) fun _ => pure)
    (map (h.assignment true s) fun _ => rfl)

theorem shorthand : Follows F false s s g.shorthand g'.shorthand :=
  bind wordThat fun _ => bind require fun _ => bind (takesSymbol rfl) fun _ =>
    ite (bind (value h true) fun _ => pure) pure

theorem property : Follows F false s s g.property g'.property :=
  bind (takesSymbol rfl) fun _ => ite
    (bind (h.assignment true s) fun _ => bind (sees (by simp)) fun _ => pure) <|
    ifSees (by simp) (shorthand h) <| bind (propertyKey h) fun _ => bind (symbol rfl) fun _ =>
      map (h.assignment true s) fun _ => rfl

/-! Members and calls. -/

theorem argument : Follows F false s s g.argument g'.argument :=
  bind (takesSymbol rfl) fun _ => bind (value h true) fun _ => pure

theorem callArguments : Follows F false s s g.callArguments g'.callArguments :=
  bind (symbol rfl) fun _ => bind (commaList rfl (argument h)) fun _ => pure

theorem instantiation : Follows F false s s g.instantiation g'.instantiation :=
  bind (typeArguments h) fun _ => bind (sees (by simp)) fun _ => require

omit h in
theorem memberName : Follows F false s s Grammar.memberName Grammar.memberName :=
  next fun
    | .word _ | .privateName _ => .inl ⟨_, rfl, nofun, pure⟩
    | .string _ | .number _ | .bigint _ | .regex | .template .. | .symbol _ => .inr ⟨rfl, rfl⟩

theorem chained : Follows F false s s g.chained g'.chained :=
  ifOpens rfl (bind (sequence h true) fun _ => symbol rfl) <|
    ifSees (by simp) (callArguments h) (bind memberName fun _ => pure)

theorem subscript (calls : Bool) {o : Operand} :
    Follows F false s s (g.subscript calls o) (g'.subscript calls (move F.move o)) :=
  bind (takesSymbol rfl) fun _ => ite
    (bind settle fun _ => bindFixed memberName fun _ => pureOf (by simp)) <|
  ifOpens rfl
    (bind settle fun _ => bind (sequence h true) fun _ => bind (symbol rfl) fun _ =>
      pureOf (by simp)) <|
  bind (takesSymbol rfl) fun _ => ite
    (bind settle fun _ => bind require fun _ => bind (chained h) fun _ => pureOf (by simp)) <|
  ifSees (Ahead.local_guarded calls (by simp))
    (bind settle fun _ => bind (callArguments h) fun _ => pureOf (by simp)) <|
  ifSees (by simp) (bind settle fun _ => bind (templateLiteral h true) fun _ => pureOf (by simp)) <|
  ifTakes (by simp) (bind settle fun _ => pureOf (by simp; rfl)) <|
  ifSees (by simp) (bind (attempt (instantiation h)) fun
    | some _ => bind settle fun _ => pureOf (by simp)
    | none => pure) pure

theorem creation {primary primary' : Parse Operand} (hp : Follows F false s s primary primary') :
    Follows F false s s (g.creation primary) (g'.creation primary') :=
  bind hp fun _ => bind (grow fun _ => subscript h false) fun _ => bind settle fun _ =>
    ifSees (by simp) (callArguments h) pure

/-! Expressions that stand by themselves. -/

omit h in
theorem pendings_move (f : Nat → Nat) (os : List Operand) :
    ((move f os).all fun o => !o.pending) = os.all fun o => !o.pending := by
  rw [move_list, List.all_map]
  rfl

theorem parenthesized : Follows F false s s g.parenthesized g'.parenthesized :=
  bind offset fun _ => bind (symbol rfl) fun _ =>
    bind (separated rfl (h.assignment true _)) fun os => bind (symbol rfl) fun _ =>
    bind (requireOf (pendings_move _ os)) fun _ => match os with
      | [] | [_] | _ :: _ :: _ => pure

theorem importExpression : Follows F false s s g.importExpression g'.importExpression :=
  bind word fun _ => bind (takesSymbol rfl) fun _ => ite word (callArguments h)

theorem namedExpression : Follows F false s s g.namedExpression g'.namedExpression :=
  bind offset fun _ => ifSees (by simp) (bind (importExpression h) fun _ => pure) <|
    bind takesWord fun _ => ite (bind (h.classRest false s) fun _ => pure) <|
    ifTakes (by simp) pure <| ifTakes (by simp) pure <| ifTakes (by simp) pure <|
    bind (sees (by simp)) fun _ => bind require fun _ => bind wordThat fun _ =>
      bind require fun _ => pure

theorem bracketedExpression :
    Follows F false s s g.bracketedExpression g'.bracketedExpression :=
  bind offset fun _ =>
    ifOpens rfl (map (commaList rfl (element h)) fun _ => by
      simp [Grammar.Part.whole, Unplaced.move_eq]) <|
    ifOpens rfl (map (commaList rfl (property h)) fun _ => by
      simp [Grammar.Part.whole, Unplaced.move_eq]) <|
    bind (decorators h) fun _ => ite
      (bind word fun _ => bind (h.classRest false s) fun _ => pure) (parenthesized h)

omit h in
theorem literal : Follows F false s s Grammar.literal Grammar.literal :=
  bind offset fun _ => next fun
    | .string _ | .number _ | .bigint _ | .regex => .inl ⟨_, rfl, nofun, pure⟩
    | .word _ | .privateName _ | .template .. | .symbol _ => .inr ⟨rfl, rfl⟩

theorem simpleExpression : Follows F false s s g.simpleExpression g'.simpleExpression :=
  bind offset fun _ => ifSees (by simp) (namedExpression h) <|
    ifSees (by simp) (bracketedExpression h) <|
    ifSees (by simp) (bind (templateLiteral h false) fun _ => pure) <|
    ifTakes (by simp) pure literal

theorem creations (start : Nat) (n : Nat) :
    Follows F false s s (g.creations start n) (g'.creations (F.move start) n) := by
  induction n with
  | zero => exact simpleExpression h
  | succ n ih => exact bind word fun _ => bind (creation h ih) fun _ => pure

theorem primary : Follows F false s s g.primary g'.primary := by
  refine ⟨fun e => (creations h _ _).balances e, fun e hs => (creations h _ _).leaves e hs,
    fun {ts} hs => ?_⟩
  have hnews : ((F.lay ts).takeWhile (·.lexeme == .word "new")).length =
      (ts.takeWhile (·.lexeme == .word "new")).length := by
    rw [takeWhile_lay (fun _ _ => rfl) (fun t ht e => by simp [e] at ht) hs.guards,
      List.length_map]
  simp only [Grammar.primary, hnews]
  cases ts with
  | nil =>
    rw [Frame.lay_nil_of_guards hs.guards]
    simpa [Frame.lay_nil_of_guards hs.guards, Grammar.creations] using (simpleExpression h).same hs
  | cons t ts => exact (creations h t.offset _).same hs

theorem leftHandRule : Follows F false s s g.leftHandRule g'.leftHandRule :=
  bind (primary h) fun _ => grow fun _ => subscript h true

/-! Operators. -/

theorem postfixed : Follows F false s s g.postfixed g'.postfixed :=
  bind (leftHandRule h) fun _ => ifTakes (by simp) (bind require fun _ => pureOf (by simp)) pure

theorem signed (start : Nat) : Follows F false s s (g.signed start) (g'.signed (F.move start)) :=
  bind (h.unary s) fun _ => bind settle fun _ => pure

theorem asserted : Follows F false s s g.asserted g'.asserted := by
  refine bind (symbol rfl) fun _ => bind takesWord fun _ =>
    ite ?_ (bind (h.type true s) fun _ => ?_)
  all_goals exact bind (symbol rfl) fun _ => bind (h.unary s) fun _ => bind settle fun _ => pure

omit h in
theorem isName_move (f : Nat → Nat) (e : Expression) :
    Grammar.isName (e.move f) = Grammar.isName e := by cases e <;> rfl

omit h in
theorem isUnary_move (f : Nat → Nat) (e : Expression) :
    Grammar.isUnary (e.move f) = Grammar.isUnary e := by cases e <;> rfl

theorem unaryRule : Follows F false s s g.unaryRule g'.unaryRule :=
  bind offset fun _ => ifTakes (by simp) (signed h _) <| ifTakes (by simp) (signed h _) <|
    bind takesWord fun _ => ite
      (bind (h.unary s) fun _ => bind settle fun _ =>
        bind (requireOf (by simp [isName_move])) fun _ => pure) <|
    ifTakes (by simp) (bind (h.unary s) fun _ => bind require fun _ => pure) <|
    bind takesWord fun _ => ite (bind (h.unary s) fun _ => bind settle fun _ => pure) <|
    ifSees (by simp) (bind (asserted h) fun _ => pure) (postfixed h)

omit h in
theorem takesOperatorIn {os : List String} (hos : ∀ o ∈ os, (Lexeme.symbol o).isPlain) :
    Follows F false s s (ApiSurface.Source.takesOperatorIn os)
      (ApiSurface.Source.takesOperatorIn os) := by
  have htaken {ts rest : List Token} {o? : Option String}
      (e : ApiSurface.Source.takesOperatorIn os ts = some (o?, rest)) :
      ∃ taken, ts = taken ++ rest ∧ ∀ t ∈ taken, t.lexeme.isPlain := by
    unfold ApiSurface.Source.takesOperatorIn at e
    split at e
    · next o n ho =>
      split at e
      · next hmem =>
        obtain ⟨taken, rest, rfl, rfl, hplain⟩ :=
          exists_of_operatorAhead ho (hos o (by simpa using hmem))
        cases e
        exact ⟨taken, by simp, hplain⟩
      · cases e
        exact ⟨[], rfl, nofun⟩
    · cases e
      exact ⟨[], rfl, nofun⟩
  refine ⟨fun {ts rest a} e => ?_, fun {ts rest a} e hs => ?_, fun {ts} hs => ?_⟩
  · obtain ⟨taken, rfl, hplain⟩ := htaken e
    exact Spans.of_isPlain hplain rest
  · obtain ⟨taken, rfl, hplain⟩ := htaken e
    exact .inl (hs.of_append hplain)
  · simp only [ApiSurface.Source.takesOperatorIn, operatorAhead_lay hs.guards]
    cases ho : operatorAhead ts with
    | none => rfl
    | some x =>
      obtain ⟨o, n⟩ := x
      by_cases hmem : os.contains o
      · obtain ⟨taken, rest, rfl, rfl, -⟩ :=
          exists_of_operatorAhead ho (hos o (by simpa using hmem))
        simp only [hmem, if_true, Frame.lay_append, List.drop_left', List.length_map,
          Option.map_some]
        rfl
      · simp only [hmem, Bool.false_eq_true, if_false, Option.map_some]
        rfl

theorem link (allowIn : Bool) {c : Grammar.Chain} :
    Follows F false s s (g.link allowIn c) (g'.link allowIn c) :=
  ifTakes (by simp)
    (bind takesWord fun _ => ite pure (bind (h.type true s) fun _ => pure)) <|
    bindFixed (takesOperatorIn (by cases allowIn <;> decide)) fun
      | some _ => bind require fun _ => bind (h.unary s) fun _ => bind settle fun _ =>
        pureOf (by simp [isUnary_move])
      | none => pure

theorem binary (allowIn : Bool) : Follows F false s s (g.binary allowIn) (g'.binary allowIn) :=
  bind (unaryRule h) fun _ =>
    bindFixed (isUnary_move F.move _ ▸ grow fun _ => link h allowIn) fun _ => ite pure
      (bind settle fun _ => bind require fun _ => pureOf (by simp))

theorem branches (allowIn : Bool) {first first' : Parse Expression}
    (hf : Follows F false s s first first') :
    Follows F false s s (g.branches allowIn first) (g'.branches allowIn first') :=
  bind hf fun _ => bind (symbol rfl) fun _ => bind (value h allowIn) fun _ => pure

theorem choice (allowIn : Bool) : Follows F false s s (g.choice allowIn) (g'.choice allowIn) :=
  ifSees (by simp)
    (orElse (branches h allowIn (value h true))
      (branches h allowIn (bind (h.leftHand s) fun _ => settle)))
    (branches h allowIn (value h true))

theorem conditional (allowIn : Bool) :
    Follows F false s s (g.conditional allowIn) (g'.conditional allowIn) :=
  bind (binary h allowIn) fun _ => bind (takesSymbol rfl) fun _ => ite
    (bind settle fun _ => bind (choice h allowIn) fun _ => pureOf (by simp)) pure

end Follows

/-! Functions written with an arrow. -/

section Arrows

variable {F : Frame} {s : List Bracket}

/-- How many brackets are open, the holes of templates apart. -/
def depth (s : List Bracket) : Nat := s.countP (· ≠ .hole)

@[simp] theorem depth_hole (s : List Bracket) : depth (.hole :: s) = depth s := by simp [depth]

theorem depth_cons {b : Bracket} (hb : b ≠ .hole) (s : List Bracket) :
    depth (b :: s) = depth s + 1 := by simp [depth, hb]

theorem depth_concat_ne_zero {b : Bracket} (hb : b ≠ .hole) (inner : List Bracket) :
    depth (inner ++ [b]) ≠ 0 := by simp [depth, hb]

/-- What a lexeme opens or closes, a bracket or a hole, and how deep what follows is. -/
theorem shift_cases {l : Lexeme} {s s' : List Bracket} (h : l.shift s = some s') :
    (∃ b, b ≠ .hole ∧ s' = b :: s ∧ ∀ n, Grammar.depthAfter n l = n + 1) ∨
      (∃ b, b ≠ .hole ∧ s = b :: s' ∧ l ≠ .symbol ";" ∧ ∀ n, Grammar.depthAfter n l = n - 1) ∨
      (s' = s ∨ s' = .hole :: s ∨ s = .hole :: s') ∧ ∀ n, Grammar.depthAfter n l = n := by
  unfold Lexeme.shift at h
  split at h
  · next hclosed =>
    cases h
    unfold Lexeme.opened?
    split
    · exact .inl ⟨.curly, nofun, rfl, fun _ => rfl⟩
    · exact .inl ⟨.round, nofun, rfl, fun _ => rfl⟩
    · exact .inl ⟨.square, nofun, rfl, fun _ => rfl⟩
    · exact .inr (.inr ⟨.inr (.inl rfl), fun _ => rfl⟩)
    · refine .inr (.inr ⟨.inl rfl, fun n => ?_⟩)
      cases l with
      | symbol x =>
        unfold Lexeme.closed? at hclosed
        split at hclosed <;> simp_all [Grammar.depthAfter]
      | _ => rfl
  · next hclosed =>
    split at h
    · next hc =>
      cases h
      subst hc
      unfold Lexeme.closed? at hclosed
      split at hclosed <;> cases hclosed
      · exact .inr (.inl ⟨.curly, nofun, rfl, nofun, fun _ => rfl⟩)
      · exact .inr (.inl ⟨.round, nofun, rfl, nofun, fun _ => rfl⟩)
      · exact .inr (.inl ⟨.square, nofun, rfl, nofun, fun _ => rfl⟩)
      · next closes _ =>
        cases closes
        · exact .inr (.inr ⟨.inl rfl, fun _ => rfl⟩)
        · exact .inr (.inr ⟨.inr (.inr rfl), fun _ => rfl⟩)
    · cases h
  · cases h

theorem behindBrackets_map (f : Nat → Nat) (n : Nat) (ts : List Token) :
    Grammar.behindBrackets n (ts.map (·.move f)) =
      (Grammar.behindBrackets n ts).map (·.move f) := by
  induction ts generalizing n with
  | nil => rfl
  | cons t ts ih =>
    simp only [List.map_cons, Grammar.behindBrackets, Token.lexeme_move, ih]
    split <;> rfl

/-- Brackets are closed before the end, and what is behind them is told of the bare tokens. -/
theorem behindBrackets_lay {b : Bracket} (hb : b ≠ .hole) {ts : List Token}
    (inner : List Bracket) (hs : F.Sees (inner ++ b :: s) ts) :
    Grammar.behindBrackets (depth (inner ++ [b])) (F.lay ts) =
        F.lay (Grammar.behindBrackets (depth (inner ++ [b])) ts) ∧
      F.Guards (Grammar.behindBrackets (depth (inner ++ [b])) ts) := by
  by_cases hbehind : F.behind = []
  · refine ⟨?_, .inl hbehind⟩
    simpa [Frame.lay, hbehind] using behindBrackets_map F.move _ ts
  induction ts generalizing inner with
  | nil =>
    obtain hs | ⟨hs, -⟩ := hs.closes
    · exact absurd hs hbehind
    · simp at hs
  | cons t ts ih =>
    have hshift : ∃ s', t.lexeme.shift (inner ++ b :: s) = some s' := by
      obtain hs | ⟨hs, -⟩ := hs.closes
      · exact absurd hs hbehind
      · obtain ⟨s', hs', -⟩ := Option.bind_eq_some_iff.1 hs
        exact ⟨s', hs'⟩
    obtain ⟨s', hs'⟩ := hshift
    -- The tokens go on inside of the bracket, so it is nested what comes next.
    have hgoes {inner' : List Bracket} (hinner : s' = inner' ++ b :: s)
        (hdepth : Grammar.depthAfter (depth (inner ++ [b])) t.lexeme = depth (inner' ++ [b])) :
        Grammar.behindBrackets (depth (inner ++ [b])) (F.lay (t :: ts)) =
            F.lay (Grammar.behindBrackets (depth (inner ++ [b])) (t :: ts)) ∧
          F.Guards (Grammar.behindBrackets (depth (inner ++ [b])) (t :: ts)) := by
      subst hinner
      have hnested : F.Nested (inner' ++ b :: s) := .inl (by simp)
      simpa [Grammar.behindBrackets, hdepth, depth_concat_ne_zero hb] using
        ih inner' (hs.tail hs' (.inr hnested))
    obtain ⟨c, hc, rfl, hd⟩ | ⟨c, hc, hopen, hne, hd⟩ | ⟨hopen, hd⟩ := shift_cases hs'
    · exact @hgoes (c :: inner) rfl (by rw [hd, List.cons_append, depth_cons hc])
    · cases inner with
      | nil =>
        obtain ⟨rfl, rfl⟩ := List.cons.inj hopen
        have hzero : Grammar.depthAfter (depth [b]) t.lexeme = 0 := by
          rw [hd, depth_cons hb]
          rfl
        simpa [Grammar.behindBrackets, hzero] using hs.guards.tail hne
      | cons c' inner =>
        obtain ⟨rfl, rfl⟩ := List.cons.inj hopen
        exact hgoes rfl (by rw [hd, List.cons_append, depth_cons hc, Nat.add_sub_cancel])
    · obtain rfl | rfl | hopen := hopen
      · exact hgoes rfl (hd _)
      · exact @hgoes (.hole :: inner) rfl (by rw [hd, List.cons_append, depth_hole])
      · cases inner with
        | nil => exact absurd (List.cons.inj hopen).1 hb
        | cons c' inner =>
          obtain ⟨rfl, rfl⟩ := List.cons.inj hopen
          exact hgoes rfl (by rw [hd, List.cons_append, depth_hole])

theorem opensArrow_lay {ts : List Token} (hs : F.Sees s ts) :
    Grammar.opensArrow (F.lay ts) = Grammar.opensArrow ts := by
  have hword : (Ahead.anyWord.before ((Ahead.symbol "=>").and Ahead.sameLine)).Local := by simp
  have hround : (Ahead.symbol "(" (F.lay ts) &&
        Ahead.symbolIn ["=>", ":"] (Grammar.behindBrackets 0 (F.lay ts))) =
      (Ahead.symbol "(" ts && Ahead.symbolIn ["=>", ":"] (Grammar.behindBrackets 0 ts)) := by
    rw [Ahead.local_symbol _ hs.guards]
    by_cases ht : Ahead.symbol "(" ts
    · obtain ⟨t, ts, rfl, hl⟩ := Ahead.symbol_iff.1 ht
      have hopens : Grammar.depthAfter 0 t.lexeme = depth ([] ++ [.round]) := by rw [hl]; rfl
      have htail : F.Sees ([] ++ .round :: s) ts :=
        hs.tail (by rw [hl]; rfl) (.inl (by simp [hl]))
      have hne : Bracket.round ≠ .hole := nofun
      obtain ⟨hlay, hguards⟩ := behindBrackets_lay hne [] htail
      simp only [Frame.lay_cons, Grammar.behindBrackets, Token.lexeme_move, hopens,
        depth_concat_ne_zero hne [], if_false, hlay, Ahead.local_symbolIn _ hguards]
    · simp [ht]
  exact congrArg₂ (· || ·) (congrArg₂ (· || ·) (Ahead.local_symbol _ hs.guards)
    (hword hs.guards)) hround

theorem opensAsyncArrow_lay {ts : List Token} (hs : F.Sees s ts) :
    Grammar.opensAsyncArrow (F.lay ts) = Grammar.opensAsyncArrow ts := by
  simp only [Grammar.opensAsyncArrow, Ahead.local_word _ hs.guards]
  by_cases ht : Ahead.word "async" ts
  · obtain ⟨t, ts, rfl, hl⟩ := Ahead.word_iff.1 ht
    have htail : F.Sees s ts := hs.tail (by rw [hl]; rfl) (.inl (by simp [hl]))
    simp [Ahead.local_sameLine htail.guards, opensArrow_lay htail]
  · simp [ht]

theorem plain_opensAsyncArrow : Ahead.Plain Grammar.opensAsyncArrow := fun _ h =>
  Ahead.plain_word "async" (Bool.and_eq_true _ _ ▸ (Bool.and_eq_true _ _ ▸ h).1).1

end Arrows

namespace Follows

variable {F : Frame} {s : List Bracket} {g g' : Grammar} (h : Agree F g g')

include h

theorem arrowHead : Follows F false s s g.arrowHead g'.arrowHead := by
  refine bind (sees (by simp)) fun _ => ite (bind boundName fun _ => ?_)
    (bind (typeParameters h _) fun _ => bind (symbol rfl) fun _ =>
      bind (commaList rfl (parameter h true true)) fun _ => bind (annotatedResult h) fun _ => ?_)
  all_goals exact bind (sees (by simp)) fun _ => bind require fun _ => symbol rfl

theorem arrow : Follows F false s s g.arrow g'.arrow :=
  bind (takesOf plain_opensAsyncArrow fun _ => opensAsyncArrow_lay) fun _ => ite (arrowHead h) <|
    bind (seesOf fun _ => opensArrow_lay) fun _ => bind require fun _ => arrowHead h

theorem assignmentRule (allowIn : Bool) :
    Follows F false s s (g.assignmentRule allowIn) (g'.assignmentRule allowIn) :=
  bind offset fun _ => bind (attempt (arrow h)) fun
    | some _ => bind (sees (by simp)) fun _ => bind require fun _ =>
      bind (value h allowIn) fun _ => pure
    | none => bind (conditional h allowIn) fun _ => bind (takesSymbol rfl) fun _ => ite
      (bind require fun _ => bind (value h allowIn) fun _ => pure) <|
      bindFixed (takesOperatorIn (by decide)) fun
        | some _ => bind require fun _ => bind (value h allowIn) fun _ => pure
        | none => pure

end Follows
end ApiSurface.Source
