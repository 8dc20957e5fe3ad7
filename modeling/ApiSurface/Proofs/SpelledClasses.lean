import ApiSurface.Proofs.SpelledExpressions

/-! The rules for classes and declarations keep the spelling of the tokens they read. -/
namespace ApiSurface.Source
namespace Keeps

variable {g : Grammar} (h : g.Keeps)

include h

theorem base : Keeps (fun _ => True) g.base :=
  after offset fun _ => after anyWord fun _ => after (grow (P := fun _ => True) (fun _ _ =>
    after takesSymbol fun _ => ite (after memberName fun _ => pureSome trivial) pureNone) trivial)
      fun _ => after sees fun _ => ite (after (typeArguments h) fun _ => pure trivial)
        (pure trivial)

/-! Members. -/

theorem classModifiers (c : Enclosing) : Keeps (fun _ => True) (g.classModifiers c) :=
  after (decorators h) fun _ => after takes fun _ => after takes fun _ => after takes fun _ =>
    after takes fun _ => after (during anyWord) fun _ => after require fun _ => pure trivial

theorem memberKey : Keeps MemberKey.Spelled g.memberKey :=
  after sees fun _ => ite (after next fun
    | .privateName _ => pure trivial
    | .word _ | .string _ | .number _ | .bigint _ | .regex | .template .. | .symbol _ => refuse)
    (map (propertyKey h) fun _ hk => hk)

omit h in
theorem noBody : Keeps (fun _ => True) Grammar.noBody :=
  after sees fun _ => after require fun _ => endStatement

theorem constructorRest (m : Modifiers) {key : Key} (hk : key.Spelled) :
    Keeps ClassMember.Spelled (g.constructorRest m key) :=
  after require fun _ => bind (parameters h true) fun _ hps => after noBody fun _ =>
    pure (.constructor hk hps)

theorem methodRest (m : Modifiers) (start : Nat) {key : MemberKey} (hk : key.Spelled)
    (fits : List Parameter → Bool) :
    Keeps ClassMember.Spelled (g.methodRest m start key fits) :=
  after require fun _ => after (typeParameters h _) fun _ => bind (parameters h true) fun _ hps =>
    after require fun _ => bind (annotatedResult h) fun _ hr => after noBody fun _ =>
      match key, hk with
      | .visible _, hk => pure (.method hk hps hr)
      | .hidden _, _ => after require fun _ => pure .privateMethod

theorem fieldRest (m : Modifiers) (start : Nat) {key : MemberKey} (hk : key.Spelled)
    (accessor isOptional : Bool) :
    Keeps ClassMember.Spelled (g.fieldRest m start key accessor isOptional) := by
  refine after require fun _ => after sees fun _ => ite (after symbol fun _ => ?_) ?_
  all_goals
    refine after (annotated h true) fun _ =>
      after (given (after symbol fun _ => value h true)) fun _ => after require fun _ =>
        after endStatement fun _ => ?_
    cases key with
    | visible k => exact pure (by split; exacts [.accessor, .field hk])
    | hidden n => exact after require fun _ => pure (by split; exacts [.accessor, .privateField])

theorem classAccessor (m : Modifiers) (start : Nat) (fits : List Parameter → Bool) :
    Keeps ClassMember.Spelled (g.classAccessor m start fits) :=
  bind (memberKey h) fun _ hk => after require fun _ => methodRest h m start hk fits

theorem keyedMember (m : Modifiers) (start : Nat) (accessor : Bool) :
    Keeps ClassMember.Spelled (g.keyedMember m start accessor) := by
  refine bind (memberKey h) fun key hk => after takesSymbol fun _ => after sees fun _ => ite
    (after require fun _ => ?_) <|
    after sees fun _ => ite (fieldRest h m start hk _ _) <| after sees fun _ => ?_
  · cases key with
    | visible k => exact ite (constructorRest h m hk) (methodRest h m start hk _)
    | hidden n => exact methodRest h m start hk _
  · split
    · exact classAccessor h m start _
    · exact classAccessor h m start _
    · exact after sees fun _ => ite (fieldRest h m start hk _ _) <|
        after takesSymbol fun _ => bind (memberKey h) fun _ hk => after require fun _ =>
          after takesSymbol fun _ => methodRest h m start hk _
    · exact fieldRest h m start hk _ _

theorem staticBlock (m : Modifiers) (start : Nat) :
    Keeps ClassMember.Spelled (g.staticBlock m start) :=
  after require fun _ => after symbol fun _ => after (during (h.statement .top)) fun _ =>
    after symbol fun _ => pure .staticBlock

theorem classMember (c : Enclosing) : Keeps ClassMember.Spelled (g.classMember c) :=
  after offset fun start => after takesSymbol fun _ => ite (pure .empty) <|
    after (classModifiers h c) fun m => after sees fun _ => ite (staticBlock h m start) <|
    after sees fun _ => ite
      (after require fun _ => after (index h) fun _ => after endMember fun _ => pure .index) <|
    after takesSymbol fun _ => ite
      (bind (memberKey h) fun _ hk => after require fun _ => methodRest h m start hk _)
      (after takes fun accessor => keyedMember h m start accessor)

theorem classMembers (c : Enclosing) : Keeps (fun ms => ∀ m ∈ ms, m.Spelled) (g.classMembers c) :=
  after symbol fun _ => bind (during (classMember h c)) fun _ hms => after symbol fun _ => pure hms

theorem superclass : Keeps (fun _ => True) g.superclass :=
  after word fun _ => bind h.leftHand fun _ ho => after (settle ho) fun _ => after sees fun _ =>
    ite (after (typeArguments h) fun _ => pure trivial) (pure trivial)

theorem classRestRule (isAbstract : Bool) :
    Keeps ClassRest.Spelled (g.classRestRule isAbstract) :=
  after (given wordThat) fun _ => after (typeParameters h _) fun _ =>
    after (given (superclass h)) fun _ =>
      after (given (after word fun _ => separated (base h))) fun _ =>
        bind (classMembers h _) fun _ hms => pure hms

/-! Interfaces. -/

theorem bases : Keeps (fun _ => True) g.bases :=
  after takesWord fun _ => ite
    ((during (after (base h) fun _ => after sees fun _ => ite (pure trivial)
      (after symbol fun _ => pure trivial))).mono fun _ _ => trivial) (pure trivial)

theorem interfaceRest : Keeps Item.Spelled g.interfaceRest :=
  after sees fun _ => after require fun _ => after wordThat fun _ =>
    after (typeParameters h _) fun _ => after (bases h) fun _ =>
      bind (signatures h) fun _ hms => pure (.interface hms)

/-! Enumerations. -/

omit h in
theorem bracketedName : Keeps (fun _ => True) Grammar.bracketedName := by
  refine after symbol fun _ => after next fun name => after symbol fun _ => ?_
  split
  · exact pure trivial
  · exact ofTail fun ts _ _ e => by
      obtain ⟨_, -, e⟩ := Option.map_eq_some_iff.1 e
      cases e
      exact .inr rfl
  · exact refuse

theorem enumMember : Keeps (fun _ => True) g.enumMember := by
  refine after sees fun _ => after sees fun _ => ite (after anyWord fun _ => ?_) <|
    ite (after string fun _ => ?_) (after bracketedName fun _ => ?_)
  all_goals
    exact after takesSymbol fun _ =>
      ite (after (value h false) fun _ => pure trivial) (pure trivial)

theorem enumRest : Keeps Item.Spelled g.enumRest :=
  after boundName fun _ => after symbol fun _ => after (commaList (enumMember h)) fun _ =>
    pure .enumeration

/-! Functions, aliases and variables. -/

theorem functionRest (nameless : Bool) : Keeps Item.Spelled (g.functionRest nameless) :=
  after takesSymbol fun _ => after (given boundName) fun _ => after require fun _ =>
    after (typeParameters h _) fun _ => bind (parameters h true) fun _ hps =>
      after (annotatedResult h) fun _ => after noBody fun _ => pure (.function hps)

theorem aliasRest : Keeps Item.Spelled g.aliasRest :=
  after boundName fun _ => after (typeParameters h _) fun _ => after symbol fun _ =>
    bind (h.type true) fun _ ht => after endStatement fun _ => pure (.typeAlias ht)

theorem variableDeclaration (allowIn : Bool) :
    Keeps (fun _ => True) (g.variableDeclaration allowIn) := by
  refine after (h.binding false) fun b => ?_
  cases b with
  | name _ | array _ | object _ =>
    refine after sees fun _ => ite (after symbol fun _ => ?_) ?_
    all_goals
      exact after (annotated h true) fun _ =>
        after (given (after symbol fun _ => value h allowIn)) fun _ => pure trivial

theorem variablesRest : Keeps Item.Spelled g.variablesRest :=
  after (separated (variableDeclaration h true)) fun _ => after endStatement fun _ =>
    pure .variableList

theorem usingRest (start : Nat) : Keeps Item.Spelled (g.usingRest start) :=
  after (separated (after boundName fun _ => after (annotated h true) fun _ =>
      after symbol fun _ => value h true)) fun _ => after endStatement fun _ => pure .using

theorem classItem (isAbstract nameless : Bool) :
    Keeps Item.Spelled (g.classItem isAbstract nameless) :=
  bind (h.classRest isAbstract) fun _ hms => after require fun _ => pure (.classType hms)

/-! Namespaces. -/

theorem itemBlock : Keeps (fun _ => True) g.itemBlock :=
  after symbol fun _ => after (during h.item) fun _ => symbol

theorem namespaceRest (start : Nat) : Keeps Item.Spelled (g.namespaceRest start) :=
  after boundName fun _ => after (during (after symbol fun _ => anyWord)) fun _ =>
    after (itemBlock h) fun _ => pure .namespaceBlock

theorem moduleRest (start : Nat) : Keeps Item.Spelled (g.moduleRest start) :=
  after takes fun _ => ite
    (after sees fun _ => ite (after (itemBlock h) fun _ => pure .namespaceBlock)
      (after endStatement fun _ => pure .namespaceBlock)) (namespaceRest h start)

theorem globalRest (start : Nat) : Keeps Item.Spelled (g.globalRest start) :=
  after (itemBlock h) fun _ => pure .augmentation

/-! Declarations. -/

theorem sortedDeclaration (start : Nat) (sure : Bool) :
    Keeps (fun i? => ∀ i ∈ i?, i.Spelled) (g.sortedDeclaration start sure) :=
  after takes fun _ => ite (after word fun _ => mapSome (classItem h true false)) <|
    after takes fun _ => ite (mapSome (enumRest h)) <|
    after takes fun _ => ite (mapSome (interfaceRest h)) <|
    after takes fun _ => ite (mapSome (namespaceRest h start)) <|
    after takes fun _ => ite (mapSome (moduleRest h start)) <|
    after takes fun _ => ite (mapSome (aliasRest h)) <|
    after takes fun _ => ite (mapSome (globalRest h start)) pureNone

theorem plainDeclaration : Keeps (fun i? => ∀ i ∈ i?, i.Spelled) g.plainDeclaration :=
  after takesWord fun _ => ite (mapSome (classItem h false false)) <|
    after takesWord fun _ => ite (mapSome (functionRest h false)) <|
    after takes fun _ => ite (after word fun _ => mapSome (enumRest h)) <|
    after takes fun _ => ite (mapSome (variablesRest h)) pureNone

theorem declaration : Keeps (fun i? => ∀ i ∈ i?, i.Spelled) g.declaration :=
  after offset fun start => after takes fun _ => ite
    (bind (plainDeclaration h) fun
      | some _, hi => pure hi
      | none, _ => bind (sortedDeclaration h start true) fun
        | some _, hi => pure hi
        | none, _ => refuse) <|
    after takes fun _ => ite (after word fun _ => mapSome (functionRest h false)) <|
    bind (plainDeclaration h) fun
      | some _, hi => pure hi
      | none, _ => sortedDeclaration h start false

end Keeps
end ApiSurface.Source
