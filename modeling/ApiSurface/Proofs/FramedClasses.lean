import ApiSurface.Proofs.FramedExpressions

/-! The rules for classes and interfaces on framed tokens. -/
namespace ApiSurface.Source
open Parse

instance : Placed Modifiers := ⟨fun _ m => m⟩
instance : Unplaced Modifiers := ⟨fun _ _ => rfl⟩

namespace MemberKey

def move (f : Nat → Nat) : MemberKey → MemberKey
  | .visible k => .visible (k.move f)
  | .hidden n => .hidden n

instance : Placed MemberKey := ⟨MemberKey.move⟩

variable (f : Nat → Nat) (k : MemberKey)

@[simp] theorem move_memberKey : Placed.move f k = k.move f := rfl

theorem word?_move : (k.move f).word? = k.word? := by
  cases k with
  | visible k =>
    obtain ⟨computed, e⟩ := k
    cases computed <;> cases e <;> rfl
  | hidden n => rfl

@[simp] theorem isConstructor_move : (k.move f).isConstructor = k.isConstructor := by
  cases k with
  | visible k =>
    obtain ⟨computed, e⟩ := k
    cases computed <;> cases e <;> rfl
  | hidden n => rfl

end MemberKey

section Parameters

variable (f : Nat → Nat)

theorem isReceiver_move (p : Parameter) :
    Grammar.isReceiver (p.move f) = Grammar.isReceiver p := by
  cases p with
  | named n isOptional t =>
    simp only [Parameter.move]
    unfold Grammar.isReceiver
    split <;> simp_all
  | _ => rfl

theorem isRest_move (p : Parameter) : Grammar.isRest (p.move f) = Grammar.isRest p := by
  cases p <;> rfl

theorem fitsGetter_move (ps : List Parameter) :
    Grammar.fitsGetter (move f ps) = Grammar.fitsGetter ps := by
  simp [Grammar.fitsGetter, move_list, List.all_map, Function.comp_def, isReceiver_move]

theorem fitsSetter_move (ps : List Parameter) :
    Grammar.fitsSetter (move f ps) = Grammar.fitsSetter ps := by
  have hrest : (move f ps).head?.any Grammar.isRest = ps.head?.any Grammar.isRest := by
    cases ps with
    | nil => rfl
    | cons p ps => exact isRest_move f p
  rw [Grammar.fitsSetter, Grammar.fitsSetter, hrest, move_list, List.filter_map, List.length_map]
  simp [Function.comp_def, isReceiver_move]

end Parameters

namespace Ahead

@[simp] theorem local_namesMethod : namesMethod.Local := local_symbolIn _
@[simp] theorem local_namesField : namesField.Local := local_symbolIn _

@[simp] theorem local_modifies {w : String} {fieldEnd : Ahead} (h : fieldEnd.Local) :
    (modifies w fieldEnd).Local := by
  have hmember : (namesMember fieldEnd).Local :=
    local_or local_namesMethod (local_or local_namesField h)
  exact local_before (inner_word w) (local_word w) (local_not hmember)

@[simp] theorem plain_modifies (w : String) (fieldEnd : Ahead) : (modifies w fieldEnd).Plain :=
  plain_before (plain_word w)

end Ahead

namespace Follows

variable {F : Frame} {last : Bool} {s : List Bracket} {g g' : Grammar} (h : Agree F g g')

include h

theorem base : Follows F false s s g.base g'.base :=
  bind offset fun _ => bind anyWord fun _ =>
    bind (grow fun _ => bind (takesSymbol rfl) fun _ =>
      ite (bindFixed memberName fun _ => pure) pure) fun _ =>
        ifSees (by simp) (bind (typeArguments h) fun _ => pure) pure

/-! Members. -/

theorem classModifiers (c : Enclosing) :
    Follows F false s s (g.classModifiers c) (g'.classModifiers c) :=
  bind (decorators h) fun _ => bind (takes (by simp)) fun first => bind (takes (by simp)) fun _ =>
    bind (takes ⟨Ahead.local_guarded _ (by simp), Ahead.plain_guarded _ (by simp)⟩) fun _ =>
      bind (takes (by simp)) fun _ => bindFixed modifiers fun _ => bind require fun _ => pure

theorem memberKey : Follows F false s s g.memberKey g'.memberKey :=
  ifSees (by simp) (next fun
    | .privateName _ => .inl ⟨_, rfl, nofun, pure⟩
    | .word _ | .string _ | .number _ | .bigint _ | .regex | .template .. | .symbol _ =>
      .inr ⟨rfl, rfl⟩) (map (propertyKey h) fun _ => rfl)

omit h in
theorem noBody (hs : last = true ∨ F.Nested s) :
    Follows F last s s Grammar.noBody Grammar.noBody :=
  bind (sees (by simp)) fun _ => bind require fun _ => endStatement hs

theorem constructorRest (hs : F.Nested s) (m : Modifiers) {key : Key} :
    Follows F false s s (g.constructorRest m key) (g'.constructorRest m (move F.move key)) :=
  bind require fun _ => bind (parameters h true) fun _ => bind (noBody (.inr hs)) fun _ =>
    pureOf (by simp)

theorem methodRest (hs : F.Nested s) (m : Modifiers) (start : Nat) (key : MemberKey)
    {fits : List Parameter → Bool} (hf : ∀ f ps, fits (move f ps) = fits ps) :
    Follows F false s s (g.methodRest m start key fits)
      (g'.methodRest m (F.move start) (move F.move key) fits) :=
  bind require fun _ => bind (typeParameters h _) fun _ => bind (parameters h true) fun ps =>
    bind (requireOf (hf _ ps)) fun _ => bind (annotatedResult h) fun _ =>
      bind (noBody (.inr hs)) fun _ => match key with
        | .visible _ => pureOf (by simp)
        | .hidden _ => bind require fun _ => pure

theorem fieldRest (hs : F.Nested s) (m : Modifiers) (start : Nat) (key : MemberKey)
    (accessor isOptional : Bool) :
    Follows F false s s (g.fieldRest m start key accessor isOptional)
      (g'.fieldRest m (F.move start) (move F.move key) accessor isOptional) := by
  have hsure := Ahead.local_guarded (!isOptional) (Ahead.local_symbol "!")
  refine bind (requireOf (by simp)) fun _ =>
    ifSees hsure (bind (symbol rfl) fun _ => ?_) ?_
  all_goals
    refine bind (annotated h true) fun _ =>
      bind (given (by simp) (bind (symbol rfl) fun _ => value h true)) fun _ =>
        bind (requireOf (by simp)) fun _ => bind (endStatement (.inr hs)) fun _ => ?_
    cases key with
    | visible k => exact pureOf (by cases accessor <;> simp)
    | hidden n => exact bind require fun _ => pureOf (by cases accessor <;> simp)

theorem classAccessor (hs : F.Nested s) (m : Modifiers) (start : Nat)
    {fits : List Parameter → Bool} (hf : ∀ f ps, fits (move f ps) = fits ps) :
    Follows F false s s (g.classAccessor m start fits)
      (g'.classAccessor m (F.move start) fits) :=
  bind (memberKey h) fun key =>
    bind (requireOf (by simp)) fun _ =>
      methodRest h hs m start key hf

theorem keyedMember (hs : F.Nested s) (m : Modifiers) (start : Nat) (accessor : Bool) :
    Follows F false s s (g.keyedMember m start accessor)
      (g'.keyedMember m (F.move start) accessor) := by
  refine bind (memberKey h) fun key => bind (takesSymbol rfl) fun isOptional =>
    ifSees (by simp) (bind require fun _ => ?_) <|
    ifSees (by simp) (fieldRest h hs m start key accessor isOptional) <|
    bind (sees (by simp)) fun generator => ?_
  · cases key with
    | visible k =>
      have hk : (move F.move (MemberKey.visible k)).isConstructor =
          (MemberKey.visible k).isConstructor := by simp
      simp only [hk]
      exact ite (constructorRest h hs m) (methodRest h hs m start (.visible k) fun _ _ => rfl)
    | hidden n => exact methodRest h hs m start (.hidden n) fun _ _ => rfl
  · simp only [MemberKey.move_memberKey, MemberKey.word?_move, move_bool]
    split
    · exact classAccessor h hs m start fitsGetter_move
    · exact classAccessor h hs m start fitsSetter_move
    · exact ifSees (by simp) (fieldRest h hs m start key accessor isOptional) <|
        bind (takesSymbol rfl) fun _ => bind (memberKey h) fun key =>
          bind (requireOf (by simp)) fun _ => bind (takesSymbol rfl) fun _ =>
            methodRest h hs m start key fun _ _ => rfl
    · exact fieldRest h hs m start key accessor isOptional

theorem staticBlock (m : Modifiers) (start : Nat) :
    Follows F false s s (g.staticBlock m start) (g'.staticBlock m (F.move start)) :=
  bind require fun _ => bind (symbol rfl) fun _ =>
    bind (during (by simp) (h.statement .top (F.nested_cons _ _))) fun _ =>
      bind (symbol rfl) fun _ => pure

theorem classMember (hs : F.Nested s) (c : Enclosing) :
    Follows F false s s (g.classMember c) (g'.classMember c) :=
  bind offset fun start => bind (takesSemicolon hs) fun _ => ite pure <|
    bind (classModifiers h c) fun m =>
      ifSees (Ahead.local_guarded _ (by simp)) (staticBlock h m start) <|
      ifSees (by simp) (bind require fun _ => bind (index h) fun _ =>
        bind (endMember hs) fun _ => pure) <|
      bind (takesSymbol rfl) fun _ => ite
        (bind (memberKey h) fun key => bind (requireOf (by simp)) fun _ =>
          methodRest h hs m start key fun _ _ => rfl)
        (bind (takes (by simp)) fun accessor => keyedMember h hs m start accessor)

theorem classMembers (c : Enclosing) :
    Follows F false s s (g.classMembers c) (g'.classMembers c) :=
  bind (symbol rfl) fun _ => bind (during (by simp) (classMember h (F.nested_cons _ _) c)) fun _ =>
    bind (symbol rfl) fun _ => pure

omit h in
theorem bare_move (f : Nat → Nat) (e : Expression) : (e.move f).bare = e.bare.move f := by
  cases e <;> rfl

theorem superclass : Follows F false s s g.superclass g'.superclass :=
  bind word fun _ => bind (h.leftHand s) fun _ => bind settle fun _ =>
    ifSees (by simp) (bind (typeArguments h) fun _ => pureOf (by simp [bare_move]))
      (pureOf (by simp [bare_move]))

theorem classRestRule (isAbstract : Bool) :
    Follows F false s s (g.classRestRule isAbstract) (g'.classRestRule isAbstract) := by
  refine bindFixed (given (by simp) wordThat) fun _ => bind (typeParameters h _) fun _ =>
    bind (given (by simp) (superclass h)) fun parent =>
      bind (given (by simp) (bind word fun _ => separated rfl (base h))) fun _ => ?_
  rw [isSome_move]
  exact bind (classMembers h _) fun _ => pure

/-! Interfaces. -/

theorem bases : Follows F false s s g.bases g'.bases :=
  bind takesWord fun _ => ite
    (during (by simp) (bind (base h) fun _ =>
      ifSees (by simp) pure (bind (symbol rfl) fun _ => pure))) pure

theorem interfaceRest : Follows F false s s g.interfaceRest g'.interfaceRest :=
  bind (sees (by simp)) fun _ => bind require fun _ => bind wordThat fun _ =>
    bind (typeParameters h _) fun _ => bind (bases h) fun _ => bind (signatures h) fun _ =>
      pureOf (by simp)

end Follows
end ApiSurface.Source
