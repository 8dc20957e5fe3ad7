import ApiSurface.Proofs.FramedNames

/-! The rules for types on framed tokens. -/
namespace ApiSurface.Source
open Parse

instance : Placed TypeOperator := ⟨fun _ o => o⟩
instance : Unplaced TypeOperator := ⟨fun _ _ => rfl⟩
instance : Placed Mark := ⟨fun _ m => m⟩
instance : Unplaced Mark := ⟨fun _ _ => rfl⟩

namespace Ahead

@[simp] theorem local_opensParameters : Grammar.opensParameters.Local := by
  simp [Grammar.opensParameters]

@[simp] theorem local_opensIndex : Grammar.opensIndex.Local := by simp [Grammar.opensIndex]

@[simp] theorem local_opensMapped : Grammar.opensMapped.Local := by
  have hkey : Local ((symbol "[").before (reference.before (word "in"))) := by simp
  have hsplit : Grammar.opensMapped =
      ((symbolIn ["+", "-"]).before (word "readonly")).or
        (((word "readonly").before ((symbol "[").before (reference.before (word "in")))).or
          ((word "readonly").not.and ((symbol "[").before (reference.before (word "in"))))) := by
    funext ts
    simp only [Grammar.opensMapped, before, or, and, not]
    cases word "readonly" ts <;> simp
  rw [hsplit]
  exact local_or (by simp) (local_or (local_before (by simp) (by simp) hkey)
    (local_and (by simp) hkey))

theorem local_opensConstructor :
    Local fun ts => word "new" ts || word "abstract" ts && word "new" ts.tail :=
  local_or (local_word "new") (local_before (inner_word _) (local_word _) (local_word _))

end Ahead

theorem optionalsLast_move (f : Nat → Nat) (seen : Bool) (es : List TupleElement) :
    Grammar.optionalsLast seen (move f es) = Grammar.optionalsLast seen es := by
  induction es generalizing seen with
  | nil => rfl
  | cons e es ih =>
    cases e with
    | plain t | labelled _ _ _ t => cases t <;> simp [Grammar.optionalsLast, ih]

namespace Follows

variable {F : Frame} {s : List Bracket} {g g' : Grammar} (h : Agree F g g')

include h

theorem typeArguments : Follows F false s s g.typeArguments g'.typeArguments :=
  bind (symbol rfl) fun _ => bind (commaList rfl (h.type true s)) fun _ =>
    bind (requireOf (by simp)) fun _ => pure

theorem nearArguments : Follows F false s s g.nearArguments g'.nearArguments :=
  ifSees (by simp) (typeArguments h) pure

omit h in
theorem dotted {first rest : String → Bool} :
    Follows F false s s (Grammar.dotted first rest) (Grammar.dotted first rest) :=
  bind wordThat fun _ => bind (during (by simp) (bind (symbol rfl) fun _ => wordThat)) fun _ => pure

omit h in
theorem modifiers {ws : List String} :
    Follows F false s s (Grammar.modifiers ws) (Grammar.modifiers ws) := during (by simp) anyWord

theorem typeParameter (allowed : List String) :
    Follows F false s s (g.typeParameter allowed) (g'.typeParameter allowed) :=
  bindFixed modifiers fun _ => bind require fun _ => bind anyWord fun _ =>
    bind (given (by simp) (bind word fun _ => h.type true s)) fun _ =>
      bind (given (by simp) (bind (symbol rfl) fun _ => h.type true s)) fun _ => pureOf (by simp)

theorem typeParameters (allowed : List String) :
    Follows F false s s (g.typeParameters allowed) (g'.typeParameters allowed) :=
  bind (takesSymbol rfl) fun _ => ite
    (bind (commaList rfl (typeParameter h allowed)) fun _ =>
      bind (requireOf (by simp)) fun _ => pure)
    pure

theorem result (c : Bool) : Follows F false s s (g.result c) (g'.result c) :=
  bind (takes (by simp)) fun _ => bind (sees (by simp)) fun _ => ite
    (bind anyWord fun _ => bind word fun _ => bind (h.type c s) fun _ => pureOf (by simp)) <|
    ite (bind anyWord fun _ => pureOf (by simp)) (h.type c s)

theorem annotatedResult : Follows F false s s g.resultAnnotation g'.resultAnnotation :=
  given (by simp) (bind (symbol rfl) fun _ => result h true)

/-! Members of interfaces and object types. -/

omit h in
theorem endMember (hs : F.Nested s) : Follows F false s s Grammar.endMember Grammar.endMember :=
  bind (takesSymbol rfl) fun _ => ite pure (endStatement (.inr hs))

theorem callSignature (hs : F.Nested s) (start : Nat) :
    Follows F false s s (g.callSignature start) (g'.callSignature (F.move start)) :=
  bind (typeParameters h _) fun _ => bind (parameters h true) fun _ =>
    bind (annotatedResult h) fun _ => bind (endMember hs) fun _ => pureOf (by simp)

theorem constructSignature (hs : F.Nested s) (start : Nat) :
    Follows F false s s (g.constructSignature start) (g'.constructSignature (F.move start)) :=
  bind word fun _ => bind (typeParameters h _) fun _ => bind (parameters h true) fun _ =>
    bind (annotatedResult h) fun _ => bind (endMember hs) fun _ => pureOf (by simp)

theorem index : Follows F false s s g.index g'.index :=
  bind (symbol rfl) fun _ => bind anyWord fun _ => bind (symbol rfl) fun _ =>
    bind (h.type true _) fun _ => bind (symbol rfl) fun _ => bind (annotated h true) fun _ => pure

theorem getter (hs : F.Nested s) : Follows F false s s g.getter g'.getter :=
  bind word fun _ => bind (signatureKey h) fun _ => bind (symbol rfl) fun _ =>
    bind (symbol rfl) fun _ => bind (annotated h true) fun _ => bind (endMember hs) fun _ =>
      pureOf (by simp)

theorem setter (hs : F.Nested s) : Follows F false s s g.setter g'.setter :=
  bind word fun _ => bind (signatureKey h) fun _ => bind (parameters h true) fun
    | [] => refuse
    | _ :: _ => bind (endMember hs) fun _ => pureOf (by simp)

theorem keyedSignature (hs : F.Nested s) (readonly : Bool) :
    Follows F false s s (g.keyedSignature readonly) (g'.keyedSignature readonly) :=
  bind (signatureKey h) fun _ => bind (takesSymbol rfl) fun _ => ifSees (by simp)
    (bind require fun _ => bind (typeParameters h _) fun _ => bind (parameters h true) fun _ =>
      bind (annotatedResult h) fun _ => bind (endMember hs) fun _ => pureOf (by simp))
    (bind (annotated h true) fun _ => bind (endMember hs) fun _ => pureOf (by simp))

theorem signature (hs : F.Nested s) : Follows F false s s g.signature g'.signature :=
  bind offset fun _ => ifSees (by simp) (callSignature h hs _) <|
    ifSees (by simp) (constructSignature h hs _) <|
    bind (takes (by simp)) fun _ => ifSees (by simp)
      (bind (index h) fun (_, _, _) => bind (endMember hs) fun _ => pureOf (by simp))
      (orElse (getter h hs) (orElse (setter h hs) (keyedSignature h hs _)))

theorem signatures : Follows F false s s g.signatures g'.signatures :=
  bind (symbol rfl) fun _ => bind (during (by simp) (signature h (F.nested_cons _ _))) fun _ =>
    bind (symbol rfl) fun _ => pure

/-! Types that stand by themselves. -/

omit h in
theorem takesOperator : Follows F false s s Grammar.takesOperator Grammar.takesOperator :=
  ifSees (by simp) (bind anyWord fun _ => pureOf (Unplaced.move_eq _ _)) pure

omit h in
theorem mark {p : Parse Bool} (hp : Follows F false s s p p) :
    Follows F false s s (Grammar.mark p) (Grammar.mark p) :=
  bind (takesSymbol rfl) fun _ => ite (bind hp fun _ => bind require fun _ => pure) <|
    bind (takesSymbol rfl) fun _ => ite (bind hp fun _ => bind require fun _ => pure) <|
      bind hp fun _ => ite pure pure

theorem mapped : Follows F false (.curly :: s) s g.mapped g'.mapped :=
  bindFixed (mark takesWord) fun _ => bind (symbol rfl) fun _ => bind anyWord fun _ =>
    bind word fun _ => bind (h.type true _) fun _ =>
      bind (given (by simp) (bind word fun _ => h.type true _)) fun _ => bind (symbol rfl) fun _ =>
        bindFixed (mark (takesSymbol rfl)) fun _ => bind (annotated h true) fun _ =>
          bind (endStatement (.inr (F.nested_cons _ _))) fun _ => bind (symbol rfl) fun _ =>
            pureOf (by simp)

/-- A chunk closes the hole before it, and it opens another unless it is the last. -/
theorem hole : FollowsTo F false (.hole :: s) (fun x => if x.2 then s else .hole :: s)
    g.hole g'.hole :=
  bind (h.type true _) fun _ => next fun
    | .template _ false true true => .inl ⟨s, rfl, nofun, pureTo rfl rfl⟩
    | .template _ false false true => .inl ⟨.hole :: s, rfl, nofun, pureTo rfl rfl⟩
    | .template _ false _ false | .template _ true _ _ => .inr ⟨rfl, rfl⟩
    | .word _ | .privateName _ | .string _ | .number _ | .bigint _ | .regex | .symbol _ =>
      .inr ⟨rfl, rfl⟩

theorem holes : Follows F false (.hole :: s) s g.holes g'.holes :=
  map (growTo (fun x : List Hole × Bool => if x.2 then s else .hole :: s) (fun
    | (_, true) => pureTo rfl rfl
    | (_, false) => bind (hole h) fun (_, _) => pureTo rfl (by simp)) rfl) fun _ => rfl

theorem template : Follows F false s s g.template g'.template :=
  next fun
    | .template _ true true true => .inl ⟨_, rfl, nofun, pure⟩
    | .template _ true false true => .inl ⟨_, rfl, nofun, map (holes h) (by simp)⟩
    | .template _ true true false | .template _ true false false | .template _ false _ _ =>
      .inr ⟨rfl, rfl⟩
    | .word _ | .privateName _ | .string _ | .number _ | .bigint _ | .regex | .symbol _ =>
      .inr ⟨rfl, rfl⟩

omit h in
theorem elementLabel : Follows F false s s Grammar.elementLabel Grammar.elementLabel :=
  bind (takesSymbol rfl) fun _ => bind anyWord fun _ => bind (takesSymbol rfl) fun _ =>
    bind (symbol rfl) fun _ => pure

theorem elementType : Follows F false s s g.elementType g'.elementType :=
  bind (takesSymbol rfl) fun _ => ite (bind (h.type true s) fun _ => pureOf (by simp)) <|
    bind (h.type true s) fun _ => bind (takesSymbol rfl) fun _ => ite (pureOf (by simp)) pure

theorem tupleElement : Follows F false s s g.tupleElement g'.tupleElement :=
  bind (attempt elementLabel) fun
    | some (_, _, _) => bind (elementType h) fun _ => pureOf (by simp)
    | none => bind (elementType h) fun _ => pureOf (by simp)

theorem tuple : Follows F false s s g.tuple g'.tuple :=
  bind (symbol rfl) fun _ => bind (commaList rfl (tupleElement h)) fun _ =>
    bind (requireOf (optionalsLast_move _ _ _)) fun _ => pureOf (by simp)

omit h in
theorem importAttribute : Follows F false s s Grammar.importAttribute Grammar.importAttribute :=
  bind (takes (by simp)) fun _ => bind require fun _ => bind (symbol rfl) fun _ =>
    bind string fun _ => pure

omit h in
theorem importAttributes :
    Follows F false s s Grammar.importAttributes Grammar.importAttributes :=
  bind (symbol rfl) fun _ => bind (commaList rfl importAttribute) fun _ => pure

omit h in
theorem typeAttributes : Follows F false s s Grammar.typeAttributes Grammar.typeAttributes :=
  bind (takesSymbol rfl) fun _ => ite
    (ifOpens rfl
      (bind word fun _ => bind (symbol rfl) fun _ => bind importAttributes fun _ =>
        bind (takesSymbol rfl) fun _ => bind (symbol rfl) fun _ =>
          bind (takesSymbol rfl) fun _ => pure) pure)
    pure

omit h in
theorem importedPath : Follows F false s s Grammar.importedPath Grammar.importedPath :=
  bind word fun _ => bind (symbol rfl) fun _ => bind string fun _ => bind typeAttributes fun _ =>
    bind (symbol rfl) fun _ => bind (takesSymbol rfl) fun _ => ite (bind dotted fun _ => pure) pure

theorem importedArguments : Follows F false s s g.importedArguments g'.importedArguments :=
  ifSees (by simp) (typeArguments h) pure

theorem imported : Follows F false s s g.imported g'.imported :=
  bindFixed importedPath fun (_, _) => bind (importedArguments h) fun _ => pureOf (by simp)

theorem query : Follows F false s s g.query g'.query :=
  bind word fun _ => ifSees (by simp)
    (bindFixed importedPath fun (_, _) => bind (importedArguments h) fun _ =>
      bind (nearArguments h) fun _ => pureOf (by simp))
    (bindFixed dotted fun _ => bind (nearArguments h) fun _ => pureOf (by simp))

theorem this : Follows F false s s g.this g'.this :=
  bind word fun _ => ifTakes (by simp) (bind (h.type true s) fun _ => pureOf (by simp)) pure

theorem assertsThis : Follows F false s s g.assertsThis g'.assertsThis :=
  bind word fun _ => bind word fun _ =>
    ifTakes (by simp) (bind (h.type true s) fun _ => pureOf (by simp)) (pureOf (by simp))

omit h in
theorem negative : Follows F false s s Grammar.negative Grammar.negative :=
  bind (symbol rfl) fun _ => next fun
    | .number _ | .bigint _ => .inl ⟨_, rfl, nofun, pure⟩
    | .word _ | .privateName _ | .string _ | .regex | .template .. | .symbol _ => .inr ⟨rfl, rfl⟩

theorem namedType : Follows F false s s g.namedType g'.namedType :=
  ifSees (by simp) (assertsThis h) <| ifSees (by simp) (map anyWord fun _ => rfl) <|
    bind takesWord fun _ => ite pure <| bind takesWord fun _ => ite pure <|
      ifSees (by simp) (this h) <| ifSees (by simp) (query h) <|
      ifSees (by simp) (imported h) <| bindFixed dotted fun _ => bind (nearArguments h) fun _ =>
        pureOf (by simp)

theorem bracketedType : Follows F false s s g.bracketedType g'.bracketedType :=
  ifOpens rfl (bind (h.type true _) fun _ => bind (symbol rfl) fun _ => pureOf (by simp)) <|
    ifSees (by simp) (tuple h) <| ifSees (by simp) (bind (symbol rfl) fun _ => mapped h)
      (map (signatures h) (by simp))

theorem primaryType : Follows F false s s g.primaryType g'.primaryType :=
  ifSees (by simp) (namedType h) <| ifSees (by simp) (bracketedType h) <|
    ifSees (by simp) negative <| ifSees (by simp) (template h) <| next fun
      | .string _ | .number _ | .bigint _ => .inl ⟨_, rfl, nofun, pure⟩
      | .word _ | .privateName _ | .regex | .template .. | .symbol _ => .inr ⟨rfl, rfl⟩

/-! Types with operators. -/

theorem suffix {t : TypeTerm} : Follows F false s s (g.suffix t) (g'.suffix (move F.move t)) := by
  refine bind (takesBracket "[" rfl (Ahead.asks_and (Ahead.asks_symbol (by simp))) (by simp)) fun
    | false => pureTo rfl rfl
    | true => ?_
  exact ifOpens rfl (pureOf (by simp))
    (bind (h.type true _) fun _ => bind (symbol rfl) fun _ => pureOf (by simp))

theorem suffixedType : Follows F false s s g.suffixedType g'.suffixedType :=
  bind (primaryType h) fun _ => grow fun _ => suffix h

theorem inferredBound (c : Bool) : Follows F false s s (g.inferredBound c) (g'.inferredBound c) :=
  bind word fun _ => bind (h.type false s) fun _ => bind (sees (by simp)) fun _ =>
    bind require fun _ => pure

theorem typeOperandRule (c : Bool) :
    Follows F false s s (g.typeOperandRule c) (g'.typeOperandRule c) :=
  bindFixed takesOperator fun
    | some _ => map (h.typeOperand c s) (by simp)
    | none => bind takesWord fun _ => ite
      (bind anyWord fun _ => bind (attempt (inferredBound h c)) fun _ => pureOf (by simp))
      (suffixedType h)

omit h in
theorem joined {join : String} {whole : List TypeTerm → TypeTerm} {part part' : Parse TypeTerm}
    (hj : (Lexeme.symbol join).isPlain) (hpart : Follows F false s s part part')
    (hwhole : ∀ ts, move F.move (whole ts) = whole (move F.move ts)) :
    Follows F false s s (Grammar.joined join whole part) (Grammar.joined join whole part') :=
  bind (takesSymbol hj) fun _ => bind (separated hj hpart) fun
    | [] => pureOf (hwhole _)
    | [_] => pure
    | _ :: _ :: _ => pureOf (hwhole _)

theorem union (c : Bool) : Follows F false s s (g.union c) (g'.union c) :=
  joined rfl (joined rfl (typeOperandRule h c) (by simp)) (by simp)

theorem opensFunction : Glimpses F s g.opensFunction g'.opensFunction :=
  .bind (sees (by simp)) fun _ => .ite (.of pure) <| .bind (symbol rfl) fun _ =>
    .bind (sees (by simp)) fun _ => .ite (.of pure) <| .bind (takes (by simp)) fun _ =>
      .bind (sees (by simp)) fun _ =>
        have harrow : Glimpses F (.round :: s) _ _ :=
          .ifOpens rfl (.of (sees (by simp))) (.of (sees (by simp)))
        .ite (.bind (h.binding false _) fun _ => harrow) (.bind anyWord fun _ => harrow)

theorem function (c : Bool) : Follows F false s s (g.function c) (g'.function c) :=
  bind (typeParameters h _) fun _ => bind (parameters h c) fun _ => bind (symbol rfl) fun _ =>
    bind (result h c) fun _ => pureOf (by simp)

theorem constructor (c : Bool) : Follows F false s s (g.constructor c) (g'.constructor c) :=
  bind takesWord fun _ => bind word fun _ => bind (typeParameters h _) fun _ =>
    bind (parameters h c) fun _ => bind (symbol rfl) fun _ => bind (result h c) fun _ =>
      pureOf (by simp)

theorem unconditional (c : Bool) : Follows F false s s (g.unconditional c) (g'.unconditional c) :=
  bind (foresees (opensFunction h)) fun _ => ite (function h c) <|
    ifSees Ahead.local_opensConstructor (constructor h c) (union h c)

theorem typeRule (c : Bool) : Follows F false s s (g.typeRule c) (g'.typeRule c) :=
  bind (unconditional h c) fun _ => ifSees (Ahead.local_guarded c (by simp))
    (bind word fun _ => bind (h.type false s) fun _ => bind (symbol rfl) fun _ =>
      bind (h.type true s) fun _ => bind (symbol rfl) fun _ => bind (h.type true s) fun _ =>
        pureOf (by simp))
    pure

end Follows
end ApiSurface.Source
