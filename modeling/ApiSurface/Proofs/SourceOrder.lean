import ApiSurface.Extraction
import ApiSurface.Proofs.Reading

/-! Extraction item by item. The structure of a text is what its items declare, in the order of the
text, and extraction leaves out what declares nothing by the grammar and nothing else: it succeeds
exactly when a walk over the tokens finds a declaration for every other construct. -/
namespace ApiSurface
open Source Source.Parse

namespace Source

/-! What declares nothing. -/

namespace Ahead

/-- Behind `export default`: a declaration rather than a value. -/
def opensDefault : Ahead := fun ts =>
  symbol "@" ts || words "abstract" "class" ts || word "class" ts || words "async" "function" ts ||
    word "function" ts || (word "interface").before reference ts

/-- Behind `export`: a list of names, a value, or a name for the whole. -/
def exportsNames : Ahead := fun ts =>
  if word "default" ts then !opensDefault ts.tail
  else symbolIn ["\x7b", "*"] ts || (word "type").before (symbolIn ["\x7b", "*"]) ts ||
    word "import" ts || symbol "=" ts || word "as" ts

/-- An import, an export that names what is declared elsewhere, or an empty statement. -/
def declaresNothing : Ahead := fun ts =>
  symbol ";" ts || Grammar.importsModule ts || (word "export").before exportsNames ts

end Ahead

namespace Grammar

/-! Rules that read something to declare. -/

variable {g : Grammar}

theorem classItem_yields (isAbstract nameless : Bool) :
    Yields (g.classItem isAbstract nameless) (· ≠ .silent) :=
  .bind fun _ => .bind fun _ => .pure (by simp)

theorem decoratedClass_yields : Yields g.decoratedClass (· ≠ .silent) :=
  .bind fun _ => .bind fun _ => .bind fun _ => classItem_yields _ _

theorem functionRest_yields (nameless : Bool) :
    Yields (g.functionRest nameless) (· ≠ .silent) :=
  .bind fun _ => .bind fun _ => .bind fun _ => .bind fun _ => .bind fun _ => .bind fun _ =>
    .bind fun _ => .pure (by simp)

theorem interfaceRest_yields : Yields g.interfaceRest (· ≠ .silent) :=
  .bind fun _ => .bind fun _ => .bind fun _ => .bind fun _ => .bind fun _ => .bind fun _ =>
    .pure (by simp)

theorem enumRest_yields : Yields g.enumRest (· ≠ .silent) :=
  .bind fun _ => .bind fun _ => .bind fun _ => .pure (by simp)

theorem namespaceRest_yields (start : Nat) : Yields (g.namespaceRest start) (· ≠ .silent) :=
  .bind fun _ => .bind fun _ => .bind fun _ => .pure (by simp)

theorem moduleRest_yields (start : Nat) : Yields (g.moduleRest start) (· ≠ .silent) :=
  .bind fun _ => .ite (.bind fun _ => .ite (.bind fun _ => .pure (by simp))
    (.bind fun _ => .pure (by simp))) (namespaceRest_yields start)

theorem aliasRest_yields : Yields g.aliasRest (· ≠ .silent) :=
  .bind fun _ => .bind fun _ => .bind fun _ => .bind fun _ => .bind fun _ => .pure (by simp)

theorem variablesRest_yields : Yields g.variablesRest (· ≠ .silent) :=
  .bind fun _ => .bind fun _ => .pure (by simp)

theorem usingRest_yields (start : Nat) : Yields (g.usingRest start) (· ≠ .silent) :=
  .bind fun _ => .bind fun _ => .pure (by simp)

theorem globalRest_yields (start : Nat) : Yields (g.globalRest start) (· ≠ .silent) :=
  .bind fun _ => .pure (by simp)

theorem some_yields {p : Parse Item} (h : Yields p (· ≠ .silent)) :
    Yields (some <$> p) (· ≠ some .silent) :=
  .map fun _ _ _ hp => by simpa using h hp

theorem plainDeclaration_yields : Yields g.plainDeclaration (· ≠ some .silent) :=
  .bind fun _ => .ite (some_yields (classItem_yields _ _)) <|
    .bind fun _ => .ite (some_yields (functionRest_yields _)) <|
    .bind fun _ => .ite (.bind fun _ => some_yields enumRest_yields) <|
    .bind fun _ => .ite (some_yields variablesRest_yields) (.pure (by simp))

theorem sortedDeclaration_yields (start : Nat) (sure : Bool) :
    Yields (g.sortedDeclaration start sure) (· ≠ some .silent) :=
  .bind fun _ => .ite (.bind fun _ => some_yields (classItem_yields _ _)) <|
    .bind fun _ => .ite (some_yields enumRest_yields) <|
    .bind fun _ => .ite (some_yields interfaceRest_yields) <|
    .bind fun _ => .ite (some_yields (namespaceRest_yields _)) <|
    .bind fun _ => .ite (some_yields (moduleRest_yields _)) <|
    .bind fun _ => .ite (some_yields aliasRest_yields) <|
    .bind fun _ => .ite (some_yields (globalRest_yields _)) (.pure (by simp))

/-- What a rule goes on with where the rules before it tell nothing. -/
theorem orElse_yields {q : Parse (Option Item)} (hq : Yields q (· ≠ some .silent))
    (i : Option Item) (hi : i ≠ some .silent) :
    Yields (match i with | some i => pure (some i) | none => q) (· ≠ some .silent) := by
  cases i with
  | none => exact hq
  | some i => exact .pure hi

theorem declaration_yields : Yields g.declaration (· ≠ some .silent) := by
  refine .bind fun start => .bind fun _ => .ite ?_ (.bind fun _ => .ite ?_ ?_)
  · exact plainDeclaration_yields.bind_of (orElse_yields
      ((sortedDeclaration_yields _ _).bind_of (orElse_yields .refuse)))
  · exact .bind fun _ => some_yields (functionRest_yields _)
  · exact plainDeclaration_yields.bind_of (orElse_yields (sortedDeclaration_yields _ _))

/-! The item of a module. -/

theorem statementRule_silent_iff {f : Flow} {ts rest : List Token} {i : Item}
    (h : g.statementRule f ts = some (i, rest)) : i = .silent ↔ Ahead.symbol ";" ts := by
  unfold statementRule at h
  obtain ⟨start, h⟩ := exists_of_offset_bind h
  simp only [takesSymbol, takes_bind] at h
  by_cases hs : Ahead.symbol ";" ts
  · simp only [hs, if_true, pure_apply, Option.some_inj, Prod.mk.injEq] at h
    simp [hs, h.1]
  simp only [hs, Bool.false_eq_true, if_false] at h
  simp only [hs, Bool.false_eq_true, iff_false]
  revert h
  refine fun h => (?_ : Yields _ (· ≠ Item.silent)) h
  refine .bind fun _ => .ite decoratedClass_yields <| .bind fun _ => .ite (usingRest_yields _) <|
    .bind fun _ => .ite (.bind fun _ => usingRest_yields _) ?_
  refine declaration_yields.bind_of fun i? hi => ?_
  cases i? with
  | none => exact .bind fun _ => .pure (by simp)
  | some i => exact .pure (by simpa using hi)

theorem exportDefault_silent_iff {ts rest : List Token} {i : Item}
    (h : g.exportDefault ts = some (i, rest)) : i = .silent ↔ Ahead.opensDefault ts = false := by
  obtain ⟨decorated, mid, hd, h⟩ := bind_eq_some.1 h
  unfold Ahead.opensDefault
  by_cases hat : Ahead.symbol "@" ts
  · obtain rfl := decorators_of_at hat hd
    exact iff_of_false ((Yields.bind fun _ => .bind fun _ => classItem_yields _ _) h)
      (by simp [hat])
  rw [decorators_of_not (by simpa using hat)] at hd
  cases hd
  obtain ⟨h1, h⟩ | ⟨h1, h⟩ := takes_ite_eq_some.1 h
  · exact iff_of_false ((Yields.bind fun _ => classItem_yields _ _) h) (by simp [h1])
  obtain ⟨h2, h⟩ | ⟨h2, h⟩ := takes_ite_eq_some.1 h
  · exact iff_of_false (classItem_yields _ _ h) (by simp [h2])
  obtain ⟨h3, h⟩ | ⟨h3, h⟩ := takes_ite_eq_some.1 h
  · exact iff_of_false ((Yields.bind fun _ => functionRest_yields _) h) (by simp [h3])
  obtain ⟨h4, h⟩ | ⟨h4, h⟩ := takes_ite_eq_some.1 h
  · exact iff_of_false (functionRest_yields _ h) (by simp [h4])
  obtain ⟨h5, h⟩ | ⟨h5, h⟩ := takes_ite_eq_some.1 h
  · exact iff_of_false (interfaceRest_yields h) (by simp [h5])
  refine iff_of_true ?_ (by simp [hat, h1, h2, h3, h4, h5])
  exact (Yields.bind (Q := (· = Item.silent)) fun _ => .bind fun _ => .pure rfl) h

theorem exportRest_silent_iff {ts rest : List Token} {i : Item}
    (h : g.exportRest ts = some (i, rest)) : i = .silent ↔ Ahead.exportsNames ts := by
  have names {p : Parse Unit} : Yields (p >>= fun _ => pure .silent) (· = Item.silent) :=
    .bind fun _ => .pure rfl
  unfold Ahead.exportsNames
  obtain ⟨h1, h⟩ | ⟨h1, h⟩ := takes_ite_eq_some.1 h
  · simp [h1, exportDefault_silent_iff h]
  simp only [h1, Bool.false_eq_true, if_false]
  obtain ⟨h2, h⟩ | ⟨h2, h⟩ := sees_ite_eq_some.1 h
  · exact iff_of_true (names h) (by simp [h2])
  obtain ⟨h3, h⟩ | ⟨h3, h⟩ := takes_ite_eq_some.1 h
  · exact iff_of_true (names h) (by simp [h3])
  obtain ⟨h4, h⟩ | ⟨h4, h⟩ := takes_ite_eq_some.1 h
  · exact iff_of_true ((Yields.bind fun _ => names) h) (by simp [h4])
  obtain ⟨h5, h⟩ | ⟨h5, h⟩ := takes_ite_eq_some.1 h
  · exact iff_of_true ((Yields.bind fun _ => names) h) (by simp [h5])
  obtain ⟨h6, h⟩ | ⟨h6, h⟩ := takes_ite_eq_some.1 h
  · exact iff_of_true ((Yields.bind fun _ => .bind fun _ => names) h) (by simp [h6])
  refine iff_of_false ?_ (by simp [h2, h3, h4, h5, h6])
  refine (Yields.bind fun _ => .ite decoratedClass_yields ?_) h
  refine declaration_yields.bind_of fun i? hi => ?_
  cases i? with
  | none => exact .refuse
  | some i => exact .pure (by simpa using hi)

/-- Decorators that stand in front of an exported class. -/
theorem of_attempt_decoratedExport {ts rest : List Token} {d : Option Unit}
    (ha : attempt g.decoratedExport ts = some (d, rest)) :
    d = none ∧ rest = ts ∨ d = some () ∧ Ahead.symbol "@" ts ∧ Ahead.word "export" rest := by
  obtain ⟨⟨⟩, rfl, h⟩ | ⟨rfl, -, rfl⟩ := attempt_eq_some.1 ha
  · refine .inr ⟨rfl, ?_⟩
    obtain ⟨decorated, mid, hd, h⟩ := bind_eq_some.1 h
    simp only [require_bind, sees_bind, Option.ite_none_right_eq_some] at h
    obtain ⟨rfl, h⟩ := h
    by_cases he : Ahead.word "export" mid
    · simp only [he, require_true, pure_apply, Option.some.injEq, Prod.mk.injEq, true_and] at h
      obtain rfl := h
      refine ⟨by_contra fun hat => ?_, he⟩
      rw [decorators_of_not (by simpa using hat)] at hd
      cases hd
    · simp [he] at h
  · exact .inl ⟨rfl, rfl⟩

/-- An item is silent exactly where its tokens open one that declares nothing. -/
theorem itemRule_silent_iff {ts rest : List Token} {i : Item}
    (hitem : g.itemRule ts = some (i, rest)) : i = .silent ↔ Ahead.declaresNothing ts := by
  obtain ⟨decorated, mid, hd, h⟩ := bind_eq_some.1 hitem
  unfold Ahead.declaresNothing
  obtain ⟨rfl, rfl⟩ | ⟨rfl, hat, he⟩ := of_attempt_decoratedExport hd
  · obtain ⟨h1, h⟩ | ⟨h1, h⟩ := takes_ite_eq_some.1 h
    · refine iff_of_true ?_ (by simp [h1])
      exact (Yields.bind (Q := (· = Item.silent)) fun _ => .pure rfl) h
    obtain ⟨h2, h⟩ | ⟨h2, h⟩ := takes_ite_eq_some.1 h
    · obtain ⟨j, mid', hj, h⟩ := bind_eq_some.1 h
      simp only [Option.isNone_none, Bool.true_or, require_bind, if_true, pure_apply,
        Option.some.injEq, Prod.mk.injEq] at h
      obtain ⟨rfl, rfl⟩ := h
      simp [h1, Ahead.before, h2, Ahead.symbol_of_word h2, exportRest_silent_iff hj]
    · simp [h1, Ahead.before, h2, statementRule_silent_iff h]
  · have hi : importsModule mid = false := by simp [importsModule, Ahead.word_of_word he]
    obtain ⟨h1, h⟩ | ⟨-, h⟩ := takes_ite_eq_some.1 h
    · simp [hi] at h1
    obtain ⟨-, h⟩ | ⟨h2, h⟩ := takes_ite_eq_some.1 h
    · obtain ⟨j, mid', hj, h⟩ := bind_eq_some.1 h
      rw [require_bind] at h
      split at h
      · cases h
        refine iff_of_false (by simp) ?_
        simp [importsModule, Ahead.before, Ahead.symbol_of_symbol hat, Ahead.word_of_symbol hat]
      · cases h
    · simp [he] at h2

/-! Elements of classes. -/

theorem methodRest_yields (m : Modifiers) (start : Nat) (key : MemberKey)
    (fits : List Parameter → Bool) : Yields (g.methodRest m start key fits) (· ≠ .empty) := by
  refine .bind fun _ => .bind fun _ => .bind fun _ => ?_
  refine .bind fun _ => .bind fun _ => .bind fun _ => ?_
  cases key with
  | visible k => exact .pure (by simp)
  | hidden n => exact .bind fun _ => .pure (by simp)

/-- A field behind its key. -/
theorem fieldType_yields (m : Modifiers) (start : Nat) (key : MemberKey) (accessor : Bool)
    {p : Parse (Option TypeTerm)} {q : Parse (Option Expression)} :
    Yields (p >>= fun type => q >>= fun value => do
      require !(m.isAbstract && value.isSome)
      endStatement
      match key with
      | .hidden _ => do
        require !(m.accessible || m.isAbstract)
        pure (if accessor then .accessor start else .privateField start)
      | .visible k => pure (if accessor then .accessor start else .field k type value))
      (· ≠ ClassMember.empty) := by
  refine .bind fun _ => .bind fun _ => .bind fun _ => .bind fun _ => ?_
  cases key with
  | visible k => exact .pure (by split <;> simp)
  | hidden n => exact .bind fun _ => .pure (by split <;> simp)

theorem fieldRest_yields (m : Modifiers) (start : Nat) (key : MemberKey)
    (accessor isOptional : Bool) :
    Yields (g.fieldRest m start key accessor isOptional) (· ≠ .empty) :=
  .bind fun _ => .bind fun _ =>
    .ite (.bind fun _ => fieldType_yields m start key accessor)
      (fieldType_yields m start key accessor)

theorem classAccessor_yields (m : Modifiers) (start : Nat) (fits : List Parameter → Bool) :
    Yields (g.classAccessor m start fits) (· ≠ .empty) :=
  .bind fun _ => .bind fun _ => methodRest_yields _ _ _ _

theorem keyedMember_yields (m : Modifiers) (start : Nat) (accessor : Bool) :
    Yields (g.keyedMember m start accessor) (· ≠ .empty) := by
  refine .bind fun key => .bind fun _ => .bind fun _ => .ite ?_ (.bind fun _ => .ite ?_ ?_)
  · refine .bind fun _ => ?_
    cases key with
    | visible k =>
      refine .ite ?_ (methodRest_yields _ _ _ _)
      exact .bind fun _ => .bind fun _ => .bind fun _ => .pure (by simp)
    | hidden n => exact methodRest_yields _ _ _ _
  · exact fieldRest_yields _ _ _ _ _
  · refine .bind fun generator => ?_
    split
    · exact classAccessor_yields _ _ _
    · exact classAccessor_yields _ _ _
    · exact .bind fun _ => .ite (fieldRest_yields _ _ _ _ _)
        (.bind fun _ => .bind fun _ => .bind fun _ => .bind fun _ => methodRest_yields _ _ _ _)
    · exact fieldRest_yields _ _ _ _ _

/-- An element of a class is empty exactly where it is a semicolon. -/
theorem classMember_empty_iff {c : Enclosing} {ts rest : List Token} {m : ClassMember}
    (h : g.classMember c ts = some (m, rest)) : m = .empty ↔ Ahead.symbol ";" ts := by
  unfold classMember at h
  obtain ⟨start, h⟩ := exists_of_offset_bind h
  obtain ⟨hs, h⟩ | ⟨hs, h⟩ := takes_ite_eq_some.1 h
  · cases h
    simp [hs]
  refine iff_of_false ?_ (by simp [hs])
  refine (show Yields _ (· ≠ ClassMember.empty) from .bind fun _ => .bind fun _ => .ite ?_ <|
    .bind fun _ => .ite ?_ <| .bind fun _ => .ite ?_ ?_) h
  · exact .bind fun _ => .bind fun _ => .bind fun _ => .bind fun _ => .pure (by simp)
  · exact .bind fun _ => .bind fun _ => .bind fun _ => .pure (by simp)
  · exact .bind fun _ => .bind fun _ => methodRest_yields _ _ _ _
  · exact .bind fun _ => keyedMember_yields _ _ _

/-- A setter of an interface keeps the first of its parameters. -/
theorem setter_eq_some {ts rest : List Token} {m : Signature}
    (h : g.setter ts = some (m, rest)) :
    ∃ key p ps keyed behind, g.signatureKey ts.tail = some (key, keyed) ∧
      g.parameters true keyed = some (p :: ps, behind) ∧ m = .setter key p := by
  obtain ⟨_, mid, hw, h⟩ := bind_eq_some.1 h
  obtain ⟨key, keyed, hk, h⟩ := bind_eq_some.1 h
  obtain ⟨ps, behind, hps, h⟩ := bind_eq_some.1 h
  unfold word at hw
  split at hw
  · cases hw
    cases ps with
    | nil => cases h
    | cons p ps =>
      obtain ⟨_, _, _, h⟩ := bind_eq_some.1 h
      cases h
      exact ⟨key, p, ps, keyed, behind, hk, hps, rfl⟩
  · cases hw

end Grammar

/-! What parameters, members and items declare. -/

/-- A named parameter, with the type that is written for it. -/
inductive Parameter.Declares : Parameter → Declaration → Prop
  | named {n o t s} : annotationText t = .ok s → Declares (.named n o t) (.parameter n s)
  | rest {n t s} : annotationText t = .ok s → Declares (.rest n t) (.parameter ("..." ++ n) s)

/-- A member of an interface declares a property or a method. -/
inductive Signature.Declares : Signature → Declaration → Prop
  | property {readonly key o t n s} : key.text = .ok n → annotationText t = .ok s →
      Declares (.property readonly key o t) (.property n s)
  | method {key o gs ps r n ds s} : key.text = .ok n → List.Forall₂ Parameter.Declares ps ds →
      annotationText r = .ok s → Declares (.method key o gs ps r) (.method n ds (some s))
  | getter {key t n s} : key.text = .ok n → annotationText t = .ok s →
      Declares (.getter key t) (.method n [] (some s))
  | setter {key p n d} : key.text = .ok n → p.Declares d →
      Declares (.setter key p) (.method n [d] (some voidText))

/-- An element of a class declares a property or a method. -/
inductive ClassMember.Declares : ClassMember → Declaration → Prop
  | constructor {key ps n ds} : key.memberText = .ok n → List.Forall₂ Parameter.Declares ps ds →
      Declares (.constructor key ps) (.method n ds (some voidText))
  | method {key ps r n ds s} : key.memberText = .ok n → List.Forall₂ Parameter.Declares ps ds →
      annotationText r = .ok s → Declares (.method key ps r) (.method n ds (some s))
  | field {key t e n s} : key.memberText = .ok n → propertyType t e = .ok s →
      Declares (.field key t e) (.property n s)

def ClassMember.isEmpty : ClassMember → Bool
  | .empty => true
  | _ => false

theorem ClassMember.isEmpty_iff {m : ClassMember} : m.isEmpty ↔ m = .empty := by
  cases m <;> simp [isEmpty]

inductive Variable.Declares : Variable → Declaration → Prop
  | named {n t e s} : propertyType t e = .ok s → Declares (.named n t e) (.property n s)

/-- What an item declares: one thing, or one for every variable. All elements of a class but the
empty ones, all members of an interface and all parameters of a function appear in it in order. -/
inductive Item.Declares : Item → List Declaration → Prop
  | enumeration {n vs} : Declares (.enumeration n vs) [.enumeration n vs]
  | classType {n ms ds} : List.Forall₂ ClassMember.Declares (ms.filter (!·.isEmpty)) ds →
      Declares (.classType n none ms) [.classType (defaultName n) ds none]
  | derivedClass {n e ms b ds} : baseText .superclassExpression e = .ok b →
      List.Forall₂ ClassMember.Declares (ms.filter (!·.isEmpty)) ds →
      Declares (.classType n (some e) ms) [.classType (defaultName n) ds (some b)]
  | interface {n bs ms names ds} :
      List.Forall₂ (fun b t => baseText .extendsExpression b = .ok t) bs names →
      List.Forall₂ Signature.Declares ms ds →
      Declares (.interface n bs ms) [.interface n ds names]
  | function {n ps ds} : List.Forall₂ Parameter.Declares ps ds →
      Declares (.function n ps) [.method (defaultName n) ds none]
  | typeAlias {n t s} : t.text = .ok s → Declares (.typeAlias n t) [.typeAlias n s]
  | variableList {vs ds} : List.Forall₂ Variable.Declares vs ds → Declares (.variableList vs) ds

/-! Extraction maps exactly what declares something. -/

theorem Parameter.declaration_eq_ok {p : Parameter} {d : Declaration} :
    p.declaration = .ok d ↔ p.Declares d := by
  constructor
  · intro h
    obtain ⟨⟨name, type⟩, hp, e⟩ := Except.bind_eq_ok.1 h
    cases e
    cases p with
    | named n o t =>
      obtain ⟨s, hs, e⟩ := Except.bind_eq_ok.1 (by simpa only [parts] using hp)
      cases e
      exact .named hs
    | rest n t =>
      obtain ⟨s, hs, e⟩ := Except.bind_eq_ok.1 (by simpa only [parts] using hp)
      cases e
      exact .rest hs
    | _ => simp [parts, refused] at hp
  · rintro (hs | hs) <;> exact Except.bind_eq_ok.2 ⟨_, by rw [parts, hs]; rfl, rfl⟩

theorem Parameter.ambientDeclaration_eq_ok {p : Parameter} {d : Declaration} :
    p.ambientDeclaration = .ok d ↔ p.Declares d := by
  unfold ambientDeclaration
  split
  · exact ⟨nofun, nofun⟩
  · exact ⟨nofun, nofun⟩
  · exact declaration_eq_ok

theorem Parameter.mapM_declaration_eq_ok {ps : List Parameter} {ds : List Declaration} :
    ps.mapM (·.declaration) = .ok ds ↔ List.Forall₂ Parameter.Declares ps ds := by
  simp only [Except.mapM_eq_ok, declaration_eq_ok]

theorem Parameter.mapM_ambientDeclaration_eq_ok {ps : List Parameter} {ds : List Declaration} :
    ps.mapM (·.ambientDeclaration) = .ok ds ↔ List.Forall₂ Parameter.Declares ps ds := by
  simp only [Except.mapM_eq_ok, ambientDeclaration_eq_ok]

theorem Signature.declaration_eq_ok {m : Signature} {d : Declaration} :
    m.declaration = .ok d ↔ m.Declares d := by
  constructor
  · intro h
    cases m with
    | property readonly key o t =>
      obtain ⟨n, hn, h⟩ := Except.bind_eq_ok.1 h
      obtain ⟨s, hs, e⟩ := Except.bind_eq_ok.1 h
      cases e
      exact .property hn hs
    | method key o gs ps r =>
      obtain ⟨ds, hds, h⟩ := Except.bind_eq_ok.1 h
      obtain ⟨n, hn, h⟩ := Except.bind_eq_ok.1 h
      obtain ⟨s, hs, e⟩ := Except.bind_eq_ok.1 h
      cases e
      exact .method hn (Parameter.mapM_declaration_eq_ok.1 hds) hs
    | getter key t =>
      obtain ⟨n, hn, h⟩ := Except.bind_eq_ok.1 h
      obtain ⟨s, hs, e⟩ := Except.bind_eq_ok.1 h
      cases e
      exact .getter hn hs
    | setter key p =>
      obtain ⟨d, hd, h⟩ := Except.bind_eq_ok.1 h
      obtain ⟨n, hn, e⟩ := Except.bind_eq_ok.1 h
      cases e
      exact .setter hn (Parameter.declaration_eq_ok.1 hd)
    | _ => cases h
  · rintro (⟨hn, hs⟩ | ⟨hn, hps, hs⟩ | ⟨hn, hs⟩ | ⟨hn, hp⟩)
    · rw [declaration, hn, hs]
      rfl
    · rw [declaration, Parameter.mapM_declaration_eq_ok.2 hps, hn, hs]
      rfl
    · rw [declaration, hn, hs]
      rfl
    · rw [declaration, Parameter.declaration_eq_ok.2 hp, hn]
      rfl

theorem ClassMember.declaration_eq_ok {m : ClassMember} {d? : Option Declaration} :
    m.declaration = .ok d? ↔ m = .empty ∧ d? = none ∨ ∃ d, d? = some d ∧ m.Declares d := by
  constructor
  · intro h
    cases m with
    | constructor key ps =>
      obtain ⟨ds, hds, h⟩ := Except.bind_eq_ok.1 h
      obtain ⟨n, hn, e⟩ := Except.bind_eq_ok.1 h
      cases e
      exact .inr ⟨_, rfl, .constructor hn (Parameter.mapM_ambientDeclaration_eq_ok.1 hds)⟩
    | method key ps r =>
      obtain ⟨ds, hds, h⟩ := Except.bind_eq_ok.1 h
      obtain ⟨n, hn, h⟩ := Except.bind_eq_ok.1 h
      obtain ⟨s, hs, e⟩ := Except.bind_eq_ok.1 h
      cases e
      exact .inr ⟨_, rfl, .method hn (Parameter.mapM_ambientDeclaration_eq_ok.1 hds) hs⟩
    | field key t e =>
      obtain ⟨n, hn, h⟩ := Except.bind_eq_ok.1 h
      obtain ⟨s, hs, e⟩ := Except.bind_eq_ok.1 h
      cases e
      exact .inr ⟨_, rfl, .field hn hs⟩
    | empty =>
      cases h
      exact .inl ⟨rfl, rfl⟩
    | _ => cases h
  · rintro (⟨rfl, rfl⟩ | ⟨d, rfl, (⟨hn, hps⟩ | ⟨hn, hps, hs⟩ | ⟨hn, hs⟩)⟩)
    · rfl
    · rw [declaration, Parameter.mapM_ambientDeclaration_eq_ok.2 hps, hn]
      rfl
    · rw [declaration, Parameter.mapM_ambientDeclaration_eq_ok.2 hps, hn, hs]
      rfl
    · rw [declaration, hn, hs]
      rfl

/-- The members of a class are those of its elements that are not empty. -/
theorem ClassMember.mapM_declaration_eq_ok {ms : List ClassMember} {ds : List Declaration} :
    (∃ ds?, ms.mapM (·.declaration) = .ok ds? ∧ ds?.filterMap id = ds) ↔
      List.Forall₂ ClassMember.Declares (ms.filter (!·.isEmpty)) ds := by
  simp only [Except.mapM_eq_ok, declaration_eq_ok]
  constructor
  · rintro ⟨ds?, h, rfl⟩
    induction h with
    | nil => exact .nil
    | cons h _ ih =>
      obtain ⟨rfl, rfl⟩ | ⟨d, rfl, hd⟩ := h
      · exact ih
      · rw [List.filter_cons_of_pos (by cases hd <;> rfl)]
        exact .cons hd ih
  · intro h
    induction ms generalizing ds with
    | nil =>
      cases h
      exact ⟨[], .nil, rfl⟩
    | cons m ms ih =>
      by_cases he : m.isEmpty
      · rw [List.filter_cons_of_neg (by simp [he])] at h
        obtain ⟨ds?, hds, hd⟩ := ih h
        exact ⟨none :: ds?, .cons (.inl ⟨isEmpty_iff.1 he, rfl⟩) hds, hd⟩
      · rw [List.filter_cons_of_pos (by simp [he])] at h
        cases h with
        | cons hm h =>
          obtain ⟨ds?, hds, rfl⟩ := ih h
          exact ⟨some _ :: ds?, .cons (.inr ⟨_, rfl, hm⟩) hds, rfl⟩

theorem Variable.declaration_eq_ok {v : Variable} {d : Declaration} :
    v.declaration = .ok d ↔ v.Declares d := by
  constructor
  · intro h
    cases v with
    | named n t e =>
      obtain ⟨s, hs, e⟩ := Except.bind_eq_ok.1 h
      cases e
      exact .named hs
    | pattern o => cases h
  · rintro ⟨hs⟩
    rw [declaration, hs]
    rfl

theorem Item.declarations_eq_ok {i : Item} {ds : List Declaration} :
    i.declarations = .ok ds ↔ i = .silent ∧ ds = [] ∨ i.Declares ds := by
  constructor
  · intro h
    cases i with
    | enumeration n vs =>
      cases h
      exact .inr .enumeration
    | classType n e ms =>
      obtain ⟨b, hb, h⟩ := Except.bind_eq_ok.1 h
      obtain ⟨ds?, hds, h⟩ := Except.bind_eq_ok.1 h
      cases h
      have hms := ClassMember.mapM_declaration_eq_ok.1 ⟨ds?, hds, rfl⟩
      cases e with
      | none =>
        cases hb
        exact .inr (.classType hms)
      | some e =>
        obtain ⟨t, ht, rfl⟩ := Except.map_eq_ok.1 hb
        exact .inr (.derivedClass ht hms)
    | interface n bs ms =>
      obtain ⟨names, hbs, h⟩ := Except.bind_eq_ok.1 h
      obtain ⟨ds, hds, e⟩ := Except.bind_eq_ok.1 h
      cases e
      simp only [Except.mapM_eq_ok, Signature.declaration_eq_ok] at hbs hds
      exact .inr (.interface hbs hds)
    | function n ps =>
      obtain ⟨ds, hds, e⟩ := Except.bind_eq_ok.1 h
      cases e
      exact .inr (.function (Parameter.mapM_ambientDeclaration_eq_ok.1 hds))
    | typeAlias n t =>
      obtain ⟨s, hs, e⟩ := Except.bind_eq_ok.1 h
      cases e
      exact .inr (.typeAlias hs)
    | variableList vs =>
      simp only [declarations, Except.mapM_eq_ok, Variable.declaration_eq_ok] at h
      exact .inr (.variableList h)
    | silent =>
      cases h
      exact .inl ⟨rfl, rfl⟩
    | _ => cases h
  · rintro (⟨rfl, rfl⟩ | h)
    · rfl
    cases h with
    | enumeration => rfl
    | classType hms =>
      obtain ⟨ds?, hds, rfl⟩ := ClassMember.mapM_declaration_eq_ok.2 hms
      rw [declarations, hds]
      rfl
    | derivedClass hb hms =>
      obtain ⟨ds?, hds, rfl⟩ := ClassMember.mapM_declaration_eq_ok.2 hms
      rw [declarations, hds, Option.mapM_some, hb]
      rfl
    | interface hbs hms =>
      rw [declarations, Except.mapM_eq_ok.2 hbs,
        Except.mapM_eq_ok.2 (hms.imp fun _ _ => Signature.declaration_eq_ok.2)]
      rfl
    | function hps =>
      rw [declarations, Parameter.mapM_ambientDeclaration_eq_ok.2 hps]
      rfl
    | typeAlias hs =>
      rw [declarations, hs]
      rfl
    | variableList hvs =>
      simpa only [declarations, Except.mapM_eq_ok, Variable.declaration_eq_ok] using hvs

end Source

/-! The walk. -/

/-- The structure of tokens, item by item. What declares nothing is passed over; everything else
adds what it declares. -/
inductive Walk (g : Grammar) : List Token → Structure → Prop
  | done : Walk g [] []
  | skip {ts rest s} : Ahead.declaresNothing ts → g.item ts = some (.silent, rest) →
      Walk g rest s → Walk g ts s
  | item {ts rest i ds s} : ts ≠ [] → Ahead.declaresNothing ts = false →
      g.item ts = some (i, rest) → i.Declares ds → Walk g rest s → Walk g ts (ds ++ s)

theorem item_silent_iff {n : Nat} {ts rest : List Token} {i : Item}
    (h : (grammar n).item ts = some (i, rest)) : i = .silent ↔ Ahead.declaresNothing ts := by
  cases n with
  | zero => cases h
  | succ n => exact Grammar.itemRule_silent_iff h

theorem structureOf_cons {i : Item} {is : List Item} {s : Structure} :
    structureOf (i :: is) = .ok s ↔
      ∃ ds s', i.declarations = .ok ds ∧ structureOf is = .ok s' ∧ ds ++ s' = s := by
  unfold structureOf
  simp only [Except.map_eq_ok, Except.mapM_eq_ok, List.forall₂_cons_left_iff]
  constructor
  · rintro ⟨_, ⟨ds, dss, hi, his, rfl⟩, rfl⟩
    exact ⟨ds, _, hi, ⟨dss, his, rfl⟩, by simp⟩
  · rintro ⟨ds, _, hi, ⟨dss, his, rfl⟩, rfl⟩
    exact ⟨_, ⟨ds, dss, hi, his, rfl⟩, by simp⟩

/-- Items that are read one after another have the structure of the walk over their tokens. -/
theorem structureOf_eq_ok_iff_walk {n : Nat} {ts rest : List Token} {items : List Item}
    (h : Repeats (fun rest => !rest.isEmpty) (grammar n).item ts items rest) (s : Structure) :
    structureOf items = .ok s ↔ Walk (grammar n) ts s := by
  induction h generalizing s with
  | @done ts hts =>
    obtain rfl : ts = [] := by simpa using hts
    constructor
    · rintro h
      cases h
      exact .done
    · rintro (_ | ⟨h, -, -⟩ | ⟨h, -, -, -, -⟩)
      · rfl
      · cases h
      · exact absurd rfl h
  | @more ts mid rest i is hts hi _ ih =>
    rw [structureOf_cons]
    constructor
    · rintro ⟨ds, s', hds, hs, rfl⟩
      obtain ⟨rfl, rfl⟩ | hd := Item.declarations_eq_ok.1 hds
      · exact .skip ((item_silent_iff hi).1 rfl) hi ((ih s').1 hs)
      · refine .item (by simpa using hts) ?_ hi hd ((ih s').1 hs)
        refine Bool.eq_false_iff.2 fun hn => ?_
        cases (item_silent_iff hi).2 hn ▸ hd
    · rintro (_ | ⟨-, hi', hs⟩ | ⟨-, -, hi', hd, hs⟩)
      · cases hts
      · cases hi.symm.trans hi'
        exact ⟨[], s, rfl, (ih s).2 hs, rfl⟩
      · cases hi.symm.trans hi'
        exact ⟨_, _, Item.declarations_eq_ok.2 (.inr hd), (ih _).2 hs, rfl⟩

theorem repeats_of_items? {ts : List Token} {items : List Item} (h : items? ts = some items) :
    ∃ rest, Repeats (fun rest => !rest.isEmpty) (grammar (depthBound ts)).item ts items rest := by
  unfold items? at h
  obtain ⟨⟨items', rest⟩, hd, rfl⟩ := Option.map_eq_some_iff.1 h
  exact ⟨rest, repeats_of_during hd⟩

/-- A text that parses has the structure that a walk over its tokens finds, or it is refused as a
whole for a construct in it. On the walk every item but those that declare nothing adds what it
declares, and no element of a class is empty but a semicolon. Of the parameters of a setter in an
interface the first is kept. -/
theorem extract_eq_ok_iff_walk {source : String} {ts : List Token} {items : List Item}
    (hl : Lexer.tokens? (withoutMark source.toList) = some ts) (hp : items? ts = some items) :
    (∀ s, extract source = .ok s ↔ Walk (grammar (depthBound ts)) ts s) ∧
      (∀ f, extract source = .error f → ∃ r : Refusal, f = r.located (withoutMark source.toList)) ∧
      (∀ g c here m rest, Grammar.classMember g c here = some (m, rest) →
        (m.isEmpty ↔ Ahead.symbol ";" here)) ∧
      ∀ g here m rest, Grammar.setter g here = some (m, rest) →
        ∃ key p ps keyed behind, g.signatureKey here.tail = some (key, keyed) ∧
          g.parameters true keyed = some (p :: ps, behind) ∧ m = .setter key p := by
  have hitems : itemsOf (withoutMark source.toList) = .ok items := by
    simp [itemsOf, parse?, hl, hp]
  have hextract : extract source =
      (structureOf items).mapError (·.located (withoutMark source.toList)) := by
    simp only [extract, hitems]
    rfl
  obtain ⟨rest, hrepeats⟩ := repeats_of_items? hp
  refine ⟨fun s => ?_, fun f h => ?_, fun g c here m rest h => ?_, fun g here m rest h => ?_⟩
  · rw [← structureOf_eq_ok_iff_walk hrepeats, hextract]
    exact Except.mapError_eq_ok
  · rw [hextract] at h
    cases hs : structureOf items with
    | error r =>
      rw [hs] at h
      cases h
      exact ⟨r, rfl⟩
    | ok s =>
      rw [hs] at h
      cases h
  · rw [ClassMember.isEmpty_iff, Grammar.classMember_empty_iff h]
  · exact Grammar.setter_eq_some h

theorem exists_items_of_isSome {text : List Char} (h : (parse? text).isSome) :
    ∃ ts items, Lexer.tokens? text = some ts ∧ items? ts = some items := by
  obtain ⟨items, h⟩ := Option.isSome_iff_exists.1 h
  obtain ⟨ts, hl, hp⟩ := Option.bind_eq_some_iff.1 h
  exact ⟨ts, items, hl, hp⟩

/-- A text with items of several sorts. -/
def itemsOfSorts : String :=
  "import 'a'; enum E { X }; class C { ; x: A } const a: A, b: B; export default a"

/-- The walk over a text that parses. -/
theorem extract_eq_ok_iff_walk_itemsOfSorts :
    ∃ ts items, (Lexer.tokens? (withoutMark itemsOfSorts.toList) = some ts ∧
      items? ts = some items) ∧
      (∀ s, extract itemsOfSorts = .ok s ↔ Walk (grammar (depthBound ts)) ts s) ∧
      ∃ s, Walk (grammar (depthBound ts)) ts s := by
  have hp : (parse? (withoutMark itemsOfSorts.toList)).isSome := by decide +kernel
  have he : (extract itemsOfSorts).toOption.isSome := by decide +kernel
  obtain ⟨ts, items, hl, hp⟩ := exists_items_of_isSome hp
  have hwalk := (extract_eq_ok_iff_walk hl hp).1
  obtain ⟨s, hs⟩ := Option.isSome_iff_exists.1 he
  refine ⟨ts, items, ⟨hl, hp⟩, hwalk, s, (hwalk s).1 ?_⟩
  generalize extract itemsOfSorts = x at hs
  cases x with
  | error f => cases hs
  | ok s' =>
    cases hs
    rfl

/-- The structure of an interface with a setter of one parameter. -/
theorem eq_setter_of_matches {x : Except Fault Structure}
    (h : x matches .ok [.interface "I" [.method "x" [.parameter "a" "A"] (some "void")] []]) :
    x = .ok [.interface "I" [.method "x" [.parameter "a" "A"] (some "void")] []] := by
  split at h
  · rfl
  · cases h

/-- Two parameters are written for a setter, and the structure of the text has one of them. -/
theorem extract_setter_drops_parameter :
    (Lexer.tokens? "(a: A, b: B)".toList >>= (grammar 9).parameters true).map (·.1.length) =
        some 2 ∧
      extract "interface I { set x(a: A, b: B); }" =
        .ok [.interface "I" [.method "x" [.parameter "a" "A"] (some "void")] []] :=
  ⟨by decide +kernel, eq_setter_of_matches (by decide +kernel)⟩

end ApiSurface
