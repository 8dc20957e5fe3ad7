import ApiSurface.Proofs.SpelledTrees

/-! The rules for keys, parameters and types keep the spelling of the tokens they read. -/
namespace ApiSurface.Source

/-- The nonterminals of a grammar keep the spelling of tokens. -/
structure Grammar.Keeps (g : Grammar) : Prop where
  type (c : Bool) : Source.Keeps TypeTerm.Spelled (g.type c)
  typeOperand (c : Bool) : Source.Keeps TypeTerm.Spelled (g.typeOperand c)
  assignment (i : Bool) : Source.Keeps Operand.Spelled (g.assignment i)
  unary : Source.Keeps Operand.Spelled g.unary
  leftHand : Source.Keeps Operand.Spelled g.leftHand
  binding (d : Bool) : Source.Keeps Binding.Spelled (g.binding d)
  classRest (a : Bool) : Source.Keeps ClassRest.Spelled (g.classRest a)
  statement (f : Flow) : Source.Keeps Item.Spelled (g.statement f)
  item : Source.Keeps Item.Spelled g.item

namespace Keeps

variable {g : Grammar} (h : g.Keeps)

theorem settle {o : Operand} (ho : o.Spelled) :
    Keeps Expression.Spelled (Grammar.settle o) := after require fun _ => pure ho

include h

theorem value (allowIn : Bool) : Keeps Expression.Spelled (g.value allowIn) :=
  bind (h.assignment allowIn) fun _ ho => settle ho

theorem sequence (allowIn : Bool) : Keeps Expression.Spelled (g.sequence allowIn) :=
  after offset fun _ => bind (separated (value h allowIn)) fun
    | [], _ => pure .other
    | [_], hes => pure (hes _ List.mem_cons_self)
    | _ :: _ :: _, _ => pure .other

theorem annotated (c : Bool) : Keeps (fun t => ∀ u ∈ t, u.Spelled) (g.annotation c) :=
  given (after symbol fun _ => h.type c)

theorem decorators : Keeps (fun _ => True) g.decorators :=
  after (during (after symbol fun _ => h.leftHand)) fun _ => pure trivial

/-! Keys. -/

theorem literalMember {e : Expression} (he : e.Spelled) :
    Keeps (fun e? => ∀ e ∈ e?, e.Spelled) (g.literalMember e) :=
  after takesSymbol fun _ => ite
    (bind anyWord fun _ hw => pureSome (.member he (by simpa using hw))) <|
    after takesSymbol fun _ => ite
      (after (sequence h true) fun _ => after symbol fun _ => pureSome (.member he nofun))
      pureNone

omit h in
theorem simpleKey : Keeps Expression.Spelled Grammar.simpleKey :=
  after offset fun _ => bind next fun
    | .word _, hw => pure (.name hw)
    | .string _, _ => pure .string
    | .number _, hn => pure (.number hn)
    | .privateName _, _ | .bigint _, _ | .regex, _ | .template .., _ | .symbol _, _ => refuse

theorem signatureKey : Keeps Key.Spelled g.signatureKey :=
  after takesSymbol fun _ => ite
    (bind (value h false) fun _ he => after symbol fun _ => pure he) <|
    after sees fun _ => ite (bind simpleKey fun _ he => pure he) <|
      bind simpleKey fun _ he => bind (grow (fun _ => literalMember h) he) fun _ he => pure he

theorem propertyKey : Keeps Key.Spelled g.propertyKey :=
  after offset fun _ => after takesSymbol fun _ => ite
    (bind (value h true) fun _ he => after symbol fun _ => pure he) <|
    after takes fun _ => ite (pure .bigint) (bind simpleKey fun _ he => pure he)

/-! Patterns. -/

theorem defaultValue (d : Bool) : Keeps (fun _ => True) (g.defaultValue d) :=
  after takesSymbol fun _ => ite
    (after require fun _ => after (value h true) fun _ => pure trivial) (pure trivial)

theorem arrayBinding (d : Bool) : Keeps (fun _ => True) (g.arrayBinding d) :=
  after sees fun _ => ite (pure trivial) <| after takesSymbol fun _ => ite
    (after (h.binding d) fun _ => after sees fun _ => require)
    (after (h.binding d) fun _ => defaultValue h d)

theorem objectBinding (d : Bool) : Keeps (fun _ => True) (g.objectBinding d) :=
  after takesSymbol fun _ => ite (after boundName fun _ => after sees fun _ => require) <|
    after sees fun _ => ite (after boundName fun _ => defaultValue h d) <|
      after (propertyKey h) fun _ => after symbol fun _ => after (h.binding d) fun _ =>
        defaultValue h d

theorem bindingRule (d : Bool) : Keeps Binding.Spelled (g.bindingRule d) :=
  after offset fun _ => after takesSymbol fun _ => ite
    (after (commaList (arrayBinding h d)) fun _ => pure trivial) <|
    after takesSymbol fun _ => ite
      (after (commaList (objectBinding h d)) fun _ => pure trivial)
      (bind boundName fun _ hn => pure hn)

/-! Parameters. -/

theorem parameter (c d : Bool) : Keeps Parameter.Spelled (g.parameter c d) :=
  after (decorators h) fun _ => after takesSymbol fun _ => ite
    (after offset fun _ => bind (h.binding d) fun b hb => bind (annotated h c) fun _ ht =>
      after sees fun _ => after require fun _ => match b, hb with
        | .name _, hn => pure (.rest hn ht)
        | .array _, _ | .object _, _ => pure .restPattern)
    (after sees fun _ => after require fun _ => bind (h.binding d) fun b hb =>
      after takesSymbol fun _ => bind (annotated h c) fun _ ht =>
        after (defaultValue h d) fun _ => match b, hb with
          | .name _, hn => pure (.named hn ht)
          | .array _, _ => pure .arrayPattern
          | .object _, _ => pure .objectPattern)

theorem parameters (c : Bool) : Keeps (fun ps => ∀ p ∈ ps, p.Spelled) (g.parameters c) :=
  after symbol fun _ => commaList (parameter h c false)

/-! Types with names and arguments. -/

theorem typeArguments : Keeps (fun ts => ∀ t ∈ ts, t.Spelled) g.typeArguments :=
  after symbol fun _ => bind (commaList (h.type true)) fun _ hts => after require fun _ => pure hts

theorem nearArguments : Keeps (fun ts => ∀ t ∈ ts, t.Spelled) g.nearArguments :=
  after sees fun _ => ite (typeArguments h) (pure nofun)

omit h in
theorem dotted {first rest : String → Bool} :
    Keeps (fun ns => ∀ n ∈ ns, IsName n) (Grammar.dotted first rest) :=
  bind wordThat fun _ hn => bind (during (after symbol fun _ => wordThat)) fun _ hns =>
    pure (List.forall_mem_cons.2 ⟨hn, hns⟩)

theorem typeParameter (allowed : List String) :
    Keeps (fun _ => True) (g.typeParameter allowed) :=
  after (during anyWord) fun _ => after require fun _ => after anyWord fun _ =>
    after (given (after word fun _ => h.type true)) fun _ =>
      after (given (after symbol fun _ => h.type true)) fun _ => pure trivial

theorem typeParameters (allowed : List String) :
    Keeps (fun _ => True) (g.typeParameters allowed) :=
  after takesSymbol fun _ => ite
    (after (commaList (typeParameter h allowed)) fun _ => after require fun _ => pure trivial)
    (pure trivial)

theorem result (c : Bool) : Keeps TypeTerm.Spelled (g.result c) :=
  after takes fun _ => after sees fun _ => ite
    (bind anyWord fun _ hn => after word fun _ => bind (h.type c) fun _ ht =>
      pure (.predicate hn (by simpa using ht))) <|
    ite (bind anyWord fun _ hn => pure (.predicate hn nofun)) (h.type c)

theorem annotatedResult : Keeps (fun t => ∀ u ∈ t, u.Spelled) g.resultAnnotation :=
  given (after symbol fun _ => result h true)

/-! Members of interfaces and object types. -/

omit h in
theorem endMember : Keeps (fun _ => True) Grammar.endMember :=
  after takesSymbol fun _ => ite (pure trivial) endStatement

theorem callSignature (start : Nat) : Keeps Signature.Spelled (g.callSignature start) :=
  after (typeParameters h _) fun _ => bind (parameters h true) fun _ hps =>
    bind (annotatedResult h) fun _ hr => after endMember fun _ => pure (.call hps hr)

theorem constructSignature (start : Nat) : Keeps Signature.Spelled (g.constructSignature start) :=
  after word fun _ => after (typeParameters h _) fun _ => bind (parameters h true) fun _ hps =>
    bind (annotatedResult h) fun _ hr => after endMember fun _ => pure (.construct hps hr)

theorem index :
    Keeps (fun x => IsName x.1 ∧ x.2.1.Spelled ∧ ∀ t ∈ x.2.2, t.Spelled) g.index :=
  after symbol fun _ => bind anyWord fun _ hn => after symbol fun _ =>
    bind (h.type true) fun _ hk => after symbol fun _ => bind (annotated h true) fun _ ht =>
      pure ⟨hn, hk, ht⟩

theorem getter : Keeps Signature.Spelled g.getter :=
  after word fun _ => bind (signatureKey h) fun _ hk => after symbol fun _ =>
    after symbol fun _ => bind (annotated h true) fun _ ht => after endMember fun _ =>
      pure (.getter hk ht)

theorem setter : Keeps Signature.Spelled g.setter :=
  after word fun _ => bind (signatureKey h) fun _ hk => bind (parameters h true) fun
    | [], _ => refuse
    | _ :: _, hps => after endMember fun _ => pure (.setter hk (hps _ List.mem_cons_self))

theorem keyedSignature (readonly : Bool) :
    Keeps Signature.Spelled (g.keyedSignature readonly) :=
  bind (signatureKey h) fun _ hk => after takesSymbol fun _ => after sees fun _ => ite
    (after require fun _ => after (typeParameters h _) fun _ =>
      bind (parameters h true) fun _ hps => bind (annotatedResult h) fun _ hr =>
        after endMember fun _ => pure (.method hk hps hr))
    (bind (annotated h true) fun _ ht => after endMember fun _ => pure (.property hk ht))

theorem signature : Keeps Signature.Spelled g.signature :=
  after offset fun _ => after sees fun _ => ite (callSignature h _) <|
    after sees fun _ => ite (constructSignature h _) <|
    after takes fun _ => after sees fun _ => ite
      (bind (index h) fun (_, _, _) ⟨hn, hk, ht⟩ => after endMember fun _ => pure (.index hn hk ht))
      (orElse (getter h) (orElse (setter h) (keyedSignature h _)))

theorem signatures : Keeps (fun ms => ∀ m ∈ ms, m.Spelled) g.signatures :=
  after symbol fun _ => bind (during (signature h)) fun _ hms => after symbol fun _ => pure hms

/-! Types that stand by themselves. -/

omit h in
theorem takesOperator : Keeps (fun _ => True) Grammar.takesOperator :=
  after sees fun _ => ite (after anyWord fun _ => pure trivial) (pure trivial)

omit h in
theorem mark {p : Parse Bool} (hp : Keeps (fun _ => True) p) :
    Keeps (fun _ => True) (Grammar.mark p) :=
  after takesSymbol fun _ => ite (after hp fun _ => after require fun _ => pure trivial) <|
    after takesSymbol fun _ => ite (after hp fun _ => after require fun _ => pure trivial) <|
      after hp fun _ => ite (pure trivial) (pure trivial)

theorem mapped : Keeps TypeTerm.Spelled g.mapped :=
  after (mark takesWord) fun _ => after symbol fun _ => bind anyWord fun _ hn =>
    after word fun _ => bind (h.type true) fun _ hk =>
      bind (given (after word fun _ => h.type true)) fun _ hr => after symbol fun _ =>
        after (mark takesSymbol) fun _ => bind (annotated h true) fun _ hv =>
          after endStatement fun _ => after symbol fun _ => pure (.mapped hn hk hr hv)

theorem hole : Keeps (fun x => x.1.Spelled) g.hole :=
  bind (h.type true) fun _ ht => bind next fun
    | .template _ false true true, hc | .template _ false false true, hc => pure (.mk ht hc)
    | .template _ false _ false, _ | .template _ true _ _, _ => refuse
    | .word _, _ | .privateName _, _ | .string _, _ | .number _, _ | .bigint _, _ | .regex, _
    | .symbol _, _ => refuse

theorem holes : Keeps (fun hs => ∀ x ∈ hs, x.Spelled) g.holes :=
  map (grow (P := fun x : List Hole × Bool => ∀ y ∈ x.1, y.Spelled) (fun
    | (_, true), _ => pure nofun
    | (_, false), hhs => bind (hole h) fun (_, _) hx => pure (by
      simpa [or_imp, forall_and] using ⟨hhs, hx⟩)) nofun) fun _ hx => hx

theorem template : Keeps TypeTerm.Spelled g.template :=
  bind next fun
    | .template _ true true true, hc => pure (.template hc nofun)
    | .template _ true false true, hc => map (holes h) fun _ hhs => .template hc hhs
    | .template _ true true false, _ | .template _ true false false, _
    | .template _ false _ _, _ => refuse
    | .word _, _ | .privateName _, _ | .string _, _ | .number _, _ | .bigint _, _ | .regex, _
    | .symbol _, _ => refuse

omit h in
theorem elementLabel : Keeps (fun x => IsName x.2.1) Grammar.elementLabel :=
  after takesSymbol fun _ => bind anyWord fun _ hn => after takesSymbol fun _ =>
    after symbol fun _ => pure hn

theorem elementType : Keeps TypeTerm.SpelledElement g.elementType :=
  after takesSymbol fun _ => ite (bind (h.type true) fun _ ht => pure (.rest ht)) <|
    bind (h.type true) fun _ ht => after takesSymbol fun _ =>
      ite (pure (.optional ht)) (pure (.one ht))

theorem tupleElement : Keeps TupleElement.Spelled g.tupleElement :=
  bind (attempt elementLabel) fun
    | some (_, _, _), hn => bind (elementType h) fun _ ht => pure (.labelled (hn _ rfl) ht)
    | none, _ => bind (elementType h) fun _ ht => pure (.plain ht)

theorem tuple : Keeps TypeTerm.Spelled g.tuple :=
  after symbol fun _ => bind (commaList (tupleElement h)) fun _ hes => after require fun _ =>
    pure (.tuple hes)

omit h in
theorem importAttribute : Keeps (fun _ => True) Grammar.importAttribute :=
  after takes fun _ => after require fun _ => after symbol fun _ => after string fun _ =>
    pure trivial

omit h in
theorem importAttributes : Keeps (fun _ => True) Grammar.importAttributes :=
  after symbol fun _ => after (commaList importAttribute) fun _ => pure trivial

omit h in
theorem typeAttributes : Keeps (fun _ => True) Grammar.typeAttributes :=
  after takesSymbol fun _ => ite
    (after takesSymbol fun _ => ite
      (after word fun _ => after symbol fun _ => after importAttributes fun _ =>
        after takesSymbol fun _ => after symbol fun _ => after takesSymbol fun _ => pure trivial)
      (pure trivial))
    (pure trivial)

omit h in
theorem importedPath : Keeps (fun x => ∀ n ∈ x.2, IsName n) Grammar.importedPath :=
  after word fun _ => after symbol fun _ => after string fun _ => after typeAttributes fun _ =>
    after symbol fun _ => after takesSymbol fun _ => ite (bind dotted fun _ hns => pure hns)
      (pure nofun)

theorem importedArguments : Keeps (fun ts => ∀ t ∈ ts, t.Spelled) g.importedArguments :=
  after sees fun _ => ite (typeArguments h) (pure nofun)

theorem imported : Keeps TypeTerm.Spelled g.imported :=
  bind importedPath fun (_, _) hns => bind (importedArguments h) fun _ hts =>
    pure (.imported hns hts)

theorem query : Keeps TypeTerm.Spelled g.query :=
  after word fun _ => after sees fun _ => ite
    (bind importedPath fun (_, _) hns => bind (importedArguments h) fun _ hown =>
      bind (nearArguments h) fun _ hts => pure (.queryImport hns hown hts))
    (bind dotted fun _ hns => bind (nearArguments h) fun _ hts => pure (.query hns hts))

theorem this : Keeps TypeTerm.Spelled g.this :=
  after word fun _ => after takes fun _ => ite
    (bind (h.type true) fun _ ht => pure (.predicate isName_this (by simpa using ht)))
    (pure .this)

theorem assertsThis : Keeps TypeTerm.Spelled g.assertsThis :=
  after word fun _ => after word fun _ => after takes fun _ => ite
    (bind (h.type true) fun _ ht => pure (.predicate isName_this (by simpa using ht)))
    (pure (.predicate isName_this nofun))

omit h in
theorem negative : Keeps TypeTerm.Spelled Grammar.negative :=
  after symbol fun _ => bind next fun
    | .number _, hn => pure (.number (.inr ⟨_, rfl, hn⟩))
    | .bigint _, hn => pure (.bigint (.inr ⟨_, rfl, hn⟩))
    | .word _, _ | .privateName _, _ | .string _, _ | .regex, _ | .template .., _
    | .symbol _, _ => refuse

theorem namedType : Keeps TypeTerm.Spelled g.namedType :=
  after sees fun _ => ite (assertsThis h) <|
    after sees fun _ => ite (map anyWord fun _ hn => .keyword hn) <|
    after takesWord fun _ => ite (pure .boolean) <|
    after takesWord fun _ => ite (pure .boolean) <|
    after sees fun _ => ite (this h) <| after sees fun _ => ite (query h) <|
    after sees fun _ => ite (imported h) <|
      bind dotted fun _ hns => bind (nearArguments h) fun _ hts => pure (.reference hns hts)

theorem bracketedType : Keeps TypeTerm.Spelled g.bracketedType :=
  after takesSymbol fun _ => ite
    (bind (h.type true) fun _ ht => after symbol fun _ => pure (.parenthesized ht)) <|
    after sees fun _ => ite (tuple h) <| after sees fun _ => ite
      (after symbol fun _ => mapped h) (map (signatures h) fun _ hms => .object hms)

theorem primaryType : Keeps TypeTerm.Spelled g.primaryType :=
  after sees fun _ => ite (namedType h) <| after sees fun _ => ite (bracketedType h) <|
    after sees fun _ => ite negative <| after sees fun _ => ite (template h) <| bind next fun
      | .string _, _ => pure .string
      | .number _, hn => pure (.number (.inl hn))
      | .bigint _, hn => pure (.bigint (.inl hn))
      | .word _, _ | .privateName _, _ | .regex, _ | .template .., _ | .symbol _, _ => refuse

/-! Types with operators. -/

theorem suffix {t : TypeTerm} (ht : t.Spelled) :
    Keeps (fun t? => ∀ u ∈ t?, u.Spelled) (g.suffix t) :=
  after takes fun _ => ite
    (after takesSymbol fun _ => ite (pureSome (.array ht)) <|
      bind (h.type true) fun _ hi => after symbol fun _ => pureSome (.indexed ht hi))
    pureNone

theorem suffixedType : Keeps TypeTerm.Spelled g.suffixedType :=
  bind (primaryType h) fun _ ht => grow (fun _ => suffix h) ht

theorem inferredBound (c : Bool) : Keeps TypeTerm.Spelled (g.inferredBound c) :=
  after word fun _ => bind (h.type false) fun _ ht => after sees fun _ => after require fun _ =>
    pure ht

theorem typeOperandRule (c : Bool) : Keeps TypeTerm.Spelled (g.typeOperandRule c) :=
  after takesOperator fun
    | some _ => map (h.typeOperand c) fun _ ht => .operator ht
    | none => after takesWord fun _ => ite
      (bind anyWord fun _ hn => bind (attempt (inferredBound h c)) fun _ hb => pure (.infer hn hb))
      (suffixedType h)

omit h in
theorem joined {join : String} {whole : List TypeTerm → TypeTerm} {part : Parse TypeTerm}
    (hpart : Keeps TypeTerm.Spelled part)
    (hwhole : ∀ ts, (∀ t ∈ ts, t.Spelled) → (whole ts).Spelled) :
    Keeps TypeTerm.Spelled (Grammar.joined join whole part) :=
  after takesSymbol fun _ => bind (separated hpart) fun
    | [], hts => pure (hwhole _ hts)
    | [_], hts => pure (hts _ List.mem_cons_self)
    | _ :: _ :: _, hts => pure (hwhole _ hts)

theorem union (c : Bool) : Keeps TypeTerm.Spelled (g.union c) :=
  joined (joined (typeOperandRule h c) fun _ => .intersection) fun _ => .union

theorem function (c : Bool) : Keeps TypeTerm.Spelled (g.function c) :=
  after (typeParameters h _) fun _ => bind (parameters h c) fun _ hps => after symbol fun _ =>
    bind (result h c) fun _ hr => pure (.function hps hr)

theorem constructor (c : Bool) : Keeps TypeTerm.Spelled (g.constructor c) :=
  after takesWord fun _ => after word fun _ => after (typeParameters h _) fun _ =>
    bind (parameters h c) fun _ hps => after symbol fun _ => bind (result h c) fun _ hr =>
      pure (.constructor hps hr)

theorem unconditional (c : Bool) : Keeps TypeTerm.Spelled (g.unconditional c) :=
  after foresees fun _ => ite (function h c) <|
    after sees fun _ => ite (constructor h c) (union h c)

theorem typeRule (c : Bool) : Keeps TypeTerm.Spelled (g.typeRule c) :=
  bind (unconditional h c) fun _ ht => after sees fun _ => ite
    (after word fun _ => bind (h.type false) fun _ hb => after symbol fun _ =>
      bind (h.type true) fun _ hy => after symbol fun _ => bind (h.type true) fun _ hn =>
        pure (.conditional ht hb hy hn))
    (pure ht)

end Keeps
end ApiSurface.Source
