import ApiSurface.Proofs.FramedClasses

/-! The rules for declarations on framed tokens. A declaration ends like a statement, so it has to
be nested, or nothing but the end of the text may stand behind it. -/
namespace ApiSurface.Source
open Parse

namespace Ahead

theorem local_named (w : String) (sure : Bool) :
    Local fun ts => word w ts && (sure || reference ts.tail) :=
  local_before (inner_word w) (local_word w) (local_or (local_const sure) local_reference)

theorem plain_named (w : String) (sure : Bool) :
    Plain fun ts => word w ts && (sure || reference ts.tail) :=
  fun _ h => plain_word w (Bool.and_eq_true _ _ ▸ h).1

theorem local_near (w : String) (sure : Bool) {p : Ahead} (h : p.Local) :
    Local fun ts => word w ts && (sure || sameLine ts.tail) && p ts.tail := by
  have hsplit : (fun ts => word w ts && (sure || sameLine ts.tail) && p ts.tail) =
      (word w).before (fun ts => (sure || sameLine ts) && p ts) := by
    funext ts
    exact Bool.and_assoc _ _ _
  rw [hsplit]
  exact local_before (inner_word w) (local_word w)
    (local_and (local_or (local_const sure) local_sameLine) h)

theorem plain_near (w : String) (sure : Bool) (p : Ahead) :
    Plain fun ts => word w ts && (sure || sameLine ts.tail) && p ts.tail :=
  fun _ h => plain_word w (Bool.and_eq_true _ _ ▸ (Bool.and_eq_true _ _ ▸ h).1).1

end Ahead

/-! What tells nothing takes nothing. -/

namespace Grammar

variable {α : Type}

/-- Where the parser tells nothing, it leaves all tokens. -/
def Idle (p : Parse (Option α)) : Prop := ∀ ⦃ts rest⦄, p ts = some (none, rest) → rest = ts

theorem tells_map (p : Parse α) : Yields (some <$> p) (·.isSome) :=
  Yields.map fun _ _ _ _ => rfl

theorem idle_ifTakes {p : Ahead} {q r : Parse (Option α)} (hq : Yields q (·.isSome))
    (hr : Idle r) : Idle (takes p >>= fun b => if b then q else r) := by
  intro ts rest e
  obtain ⟨-, e⟩ | ⟨-, e⟩ := takes_ite_eq_some.1 e
  · exact absurd (hq e) (by simp)
  · exact hr e

theorem idle_plainDeclaration (g : Grammar) : Idle g.plainDeclaration :=
  idle_ifTakes (tells_map _) <| idle_ifTakes (tells_map _) <|
    idle_ifTakes (Yields.bind fun _ => tells_map _) <| idle_ifTakes (tells_map _) fun _ _ e => by
      cases e
      rfl

end Grammar

namespace Follows

variable {F : Frame} {last : Bool} {s : List Bracket} {g g' : Grammar} (h : Agree F g g')

/-! Enumerations. -/

theorem bind_refuse {α β : Type} (p : Parse α) :
    (p >>= fun _ => (Parse.refuse : Parse β)) = Parse.refuse := by
  funext ts
  rw [bind_apply]
  cases p ts <;> rfl

theorem bracketedName : Follows F false s s Grammar.bracketedName Grammar.bracketedName :=
  bind (symbol rfl) fun _ => next fun
    | .string _ => .inl ⟨_, rfl, nofun, bind (symbol rfl) fun _ => pure⟩
    | .template _ true true true =>
      .inl ⟨_, rfl, nofun, bind (symbol rfl) fun _ => (Still.lift _).follows⟩
    | .template _ true true false | .template _ true false _ | .template _ false _ _ =>
      .inr ⟨bind_refuse _, bind_refuse _⟩
    | .word _ | .privateName _ | .number _ | .bigint _ | .regex | .symbol _ =>
      .inr ⟨bind_refuse _, bind_refuse _⟩

include h

theorem enumMember : Follows F false s s g.enumMember g'.enumMember := by
  refine bind (sees (by simp)) fun _ => bind (sees (by simp)) fun _ =>
    ite (bind anyWord fun _ => ?_) <| ite (bind string fun _ => ?_) (bind bracketedName fun _ => ?_)
  all_goals exact bind (takesSymbol rfl) fun _ => ite (bind (value h false) fun _ => pure) pure

theorem enumRest : Follows F false s s g.enumRest g'.enumRest :=
  bind boundName fun _ => bind (symbol rfl) fun _ =>
    bindFixed (commaList rfl (enumMember h)) fun _ => pure

/-! Functions, aliases and variables. -/

theorem functionRest (hs : last = true ∨ F.Nested s) (nameless : Bool) :
    Follows F last s s (g.functionRest nameless) (g'.functionRest nameless) :=
  bind (takesSymbol rfl) fun _ => bindFixed (given (by simp) boundName) fun _ =>
    bind require fun _ => bind (typeParameters h _) fun _ => bind (parameters h true) fun _ =>
      bind (annotatedResult h) fun _ => bindStill (noBody hs) fun _ => Still.pureOf (by simp)

theorem aliasRest (hs : last = true ∨ F.Nested s) :
    Follows F last s s g.aliasRest g'.aliasRest :=
  bind boundName fun _ => bind (typeParameters h _) fun _ => bind (symbol rfl) fun _ =>
    bind (h.type true s) fun _ => bindStill (endStatement hs) fun _ => Still.pureOf (by simp)

theorem variableDeclaration (allowIn : Bool) :
    Follows F false s s (g.variableDeclaration allowIn) (g'.variableDeclaration allowIn) := by
  refine bind (h.binding false s) fun b => ?_
  have hsure (sure : Bool) := Ahead.local_guarded sure (Ahead.local_symbol "!")
  cases b with
  | name n =>
    refine ifSees (hsure true) (bind (symbol rfl) fun _ => ?_) ?_
    all_goals
      exact bind (annotated h true) fun _ =>
        bind (given (by simp) (bind (symbol rfl) fun _ => value h allowIn)) fun _ =>
          pureOf (by simp)
  | array o | object o =>
    refine ifSees (hsure false) (bind (symbol rfl) fun _ => ?_) ?_
    all_goals
      exact bind (annotated h true) fun _ =>
        bind (given (by simp) (bind (symbol rfl) fun _ => value h allowIn)) fun _ => pure

theorem variablesRest (hs : last = true ∨ F.Nested s) :
    Follows F last s s g.variablesRest g'.variablesRest :=
  bind (separated rfl (variableDeclaration h true)) fun _ =>
    bindStill (endStatement hs) fun _ => Still.pure

theorem usingRest (hs : last = true ∨ F.Nested s) (start : Nat) :
    Follows F last s s (g.usingRest start) (g'.usingRest (F.move start)) :=
  bind (separated rfl (bind boundName fun _ => bind (annotated h true) fun _ =>
      bind (symbol rfl) fun _ => value h true)) fun _ =>
    bindStill (endStatement hs) fun _ => Still.pure

theorem classItem (isAbstract nameless : Bool) :
    Follows F false s s (g.classItem isAbstract nameless) (g'.classItem isAbstract nameless) :=
  bind (h.classRest isAbstract s) fun _ => bind require fun _ => pure

/-! Namespaces. -/

theorem itemBlock : Follows F false s s g.itemBlock g'.itemBlock :=
  bind (symbol rfl) fun _ => bind (during (by simp) (h.item (F.nested_cons _ _))) fun _ =>
    symbol rfl

theorem namespaceRest (start : Nat) :
    Follows F false s s (g.namespaceRest start) (g'.namespaceRest (F.move start)) :=
  bind boundName fun _ => bind (during (by simp) (bind (symbol rfl) fun _ => anyWord)) fun _ =>
    bind (itemBlock h) fun _ => pure

theorem moduleRest (hs : last = true ∨ F.Nested s) (start : Nat) :
    Follows F last s s (g.moduleRest start) (g'.moduleRest (F.move start)) :=
  ifTakes (by simp) (ifSees (by simp) (bind (itemBlock h) fun _ => pure)
    (bindStill (endStatement hs) fun _ => Still.pure)) (weaken (namespaceRest h start))

theorem globalRest (start : Nat) :
    Follows F false s s (g.globalRest start) (g'.globalRest (F.move start)) :=
  bind (itemBlock h) fun _ => pure

/-! Declarations. -/

theorem sortedDeclaration (hs : last = true ∨ F.Nested s) (start : Nat) (sure : Bool) :
    Follows F last s s (g.sortedDeclaration start sure)
      (g'.sortedDeclaration (F.move start) sure) := by
  have hnamed (w : String) := And.intro (Ahead.local_named w sure) (Ahead.plain_named w sure)
  have habstract := Ahead.local_near "abstract" sure (Ahead.local_word "class")
  have hmodule := Ahead.local_near "module" sure
    (Ahead.local_or Ahead.local_string Ahead.local_reference)
  have htype := Ahead.local_near "type" sure Ahead.local_reference
  refine ifTakes ⟨habstract, Ahead.plain_near _ _ _⟩
    (weaken (bind word fun _ => map (classItem h true false) fun _ => rfl)) ?_
  refine ifTakes (hnamed _) (weaken (map (enumRest h) fun _ => rfl)) ?_
  refine ifTakes (hnamed _) (weaken (map (interfaceRest h) fun _ => rfl)) ?_
  refine ifTakes (hnamed _) (weaken (map (namespaceRest h start) fun _ => rfl)) ?_
  refine ifTakes ⟨hmodule, Ahead.plain_near _ _ _⟩ (map (moduleRest h hs start) fun _ => rfl) ?_
  refine ifTakes ⟨htype, Ahead.plain_near _ _ _⟩ (map (aliasRest h hs) fun _ => rfl) ?_
  exact ifTakes (by simp) (weaken (map (globalRest h start) fun _ => rfl)) pure

theorem plainDeclaration (hs : last = true ∨ F.Nested s) :
    Follows F last s s g.plainDeclaration g'.plainDeclaration :=
  ifTakes (by simp) (weaken (map (classItem h false false) fun _ => rfl)) <|
    ifTakes (by simp) (map (functionRest h hs false) fun _ => rfl) <|
    ifTakes (by simp) (weaken (bind word fun _ => map (enumRest h) fun _ => rfl)) <|
    ifTakes (by simp) (map (variablesRest h hs) fun _ => rfl) pure

theorem declaration (hs : last = true ∨ F.Nested s) :
    Follows F last s s g.declaration g'.declaration :=
  bind offset fun start =>
    ifTakes (by simp)
      (bindOption (plainDeclaration h hs) (fun e => Grammar.idle_plainDeclaration g e)
          (fun _ => Still.pure) <|
        bindStill (sortedDeclaration h hs start true) fun
          | some _ => Still.pure
          | none => Still.refuse) <|
    ifTakes (by simp) (bind word fun _ => map (functionRest h hs false) fun _ => rfl) <|
    bindOption (plainDeclaration h hs) (fun e => Grammar.idle_plainDeclaration g e)
        (fun _ => Still.pure) <|
      sortedDeclaration h hs start false

end Follows
end ApiSurface.Source
