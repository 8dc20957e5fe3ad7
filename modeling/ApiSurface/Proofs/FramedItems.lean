import ApiSurface.Proofs.FramedStatements

/-! The rules for imports, exports and items on framed tokens. Imports and exports end like
declarations do, and so nothing but the end of the text may stand behind them, or they have to be
nested. -/
namespace ApiSurface.Source
open Parse

instance : Placed ListedName := ⟨fun _ n => n⟩
instance : Unplaced ListedName := ⟨fun _ _ => rfl⟩
instance : Placed Listing := ⟨fun _ l => l⟩
instance : Unplaced Listing := ⟨fun _ _ => rfl⟩

namespace Ahead

theorem importModifier_eq (w : String) : Grammar.importModifier w = (word w).before
    ((symbolIn ["\x7b", "*"]).or (anyWord.and ((word "from").before
      ((word "from").not.and ((symbol "=").not.and (symbol ",").not))).not)) := by
  funext ts
  simp only [Grammar.importModifier, before, and, or, not, Bool.and_assoc]

@[simp] theorem local_importModifier (w : String) : (Grammar.importModifier w).Local := by
  rw [importModifier_eq]
  exact local_before (inner_word _) (local_word _) <| local_or (local_symbolIn _) <|
    local_and local_anyWord <| local_not <| local_before (inner_word _) (local_word _) <|
    local_and (local_not (local_word _)) <|
    local_and (local_not (local_symbol _)) (local_not (local_symbol _))

@[simp] theorem plain_importModifier (w : String) : (Grammar.importModifier w).Plain := by
  rw [importModifier_eq]
  exact plain_before (plain_word _)

theorem importsModule_eq :
    Grammar.importsModule = (word "import").before (symbolIn ["(", "."]).not := rfl

@[simp] theorem local_importsModule : Grammar.importsModule.Local := by
  rw [importsModule_eq]
  exact local_before (inner_word _) (local_word _) (local_not (local_symbolIn _))

@[simp] theorem plain_importsModule : Grammar.importsModule.Plain := by
  rw [importsModule_eq]
  exact plain_before (plain_word _)

end Ahead

namespace Follows

variable {F : Frame} {last : Bool} {s : List Bracket} {g g' : Grammar}

/-! Names in lists. -/

theorem listedName : Follows F false s s Grammar.listedName Grammar.listedName :=
  next fun
    | .word _ | .string _ => .inl ⟨_, rfl, nofun, pure⟩
    | .privateName _ | .number _ | .bigint _ | .regex | .template .. | .symbol _ =>
      .inr ⟨rfl, rfl⟩

theorem listing : Follows F false s s Grammar.listing Grammar.listing :=
  bindFixed (during (by simp) listedName) fun _ => (Still.lift _).follows

theorem listings : Follows F false s s Grammar.listings Grammar.listings :=
  bind (symbol rfl) fun _ => commaList rfl listing

theorem attributesRest : Follows F false s s Grammar.attributesRest Grammar.attributesRest :=
  ifTakes (by simp) importAttributes pure

variable (hs : last = true ∨ F.Nested s)

include hs

theorem source : Follows F last s s Grammar.source Grammar.source :=
  bind word fun _ => bind string fun _ => bind attributesRest fun _ => endStatement hs

/-! Imports. -/

theorem importedValue : Follows F last s s Grammar.importedValue Grammar.importedValue := by
  refine ifTakes (by simp)
    (bind (symbol rfl) fun _ => bind string fun _ => bind (symbol rfl) fun _ => ?_) <|
    bindFixed dotted fun _ => ?_
  all_goals exact endStatement hs

theorem importEquals : Follows F last s s Grammar.importEquals Grammar.importEquals :=
  bind boundName fun _ => bind (symbol rfl) fun _ => importedValue hs

omit hs in
theorem importAll : Follows F false s s Grammar.importAll Grammar.importAll :=
  bind (symbol rfl) fun _ => bind word fun _ => bind boundName fun _ => pure

omit hs in
theorem importNames (typesOnly : Bool) :
    Follows F false s s (Grammar.importNames typesOnly) (Grammar.importNames typesOnly) :=
  ifSees (by simp) importAll (bindFixed listings fun _ => require)

theorem importClause (typesOnly : Bool) :
    Follows F last s s (Grammar.importClause typesOnly) (Grammar.importClause typesOnly) := by
  refine ifSees (by simp)
    (bind boundName fun _ => ifTakes (by simp) (bind (importNames typesOnly) fun _ => ?_) ?_) <|
    bind (importNames typesOnly) fun _ => ?_
  all_goals exact source hs

theorem importRest : Follows F last s s Grammar.importRest Grammar.importRest := by
  refine ifTakes (by simp) (bind attributesRest fun _ => endStatement hs) <|
    bind (takes (by simp)) fun typesOnly => ifSees (by simp) (importEquals hs) ?_
  refine ifTakes ⟨Ahead.local_guarded _ (by simp), Ahead.plain_guarded _ (by simp)⟩
    (bind importAll fun _ => source hs) ?_
  have hsource := Ahead.local_before (Ahead.plain_importModifier "source").inner
    (Ahead.local_importModifier _) Ahead.local_anyWord
  exact bind (takes ⟨Ahead.local_guarded _ hsource, Ahead.plain_guarded _ (by simp)⟩) fun _ =>
    importClause hs typesOnly

/-! Exports. -/

theorem exportSome (typesOnly : Bool) :
    Follows F last s s (Grammar.exportSome typesOnly) (Grammar.exportSome typesOnly) :=
  bindFixed listings fun _ => bind require fun _ => ifSees (by simp) (source hs) <|
    bind require fun _ => endStatement hs

theorem exportAll : Follows F last s s Grammar.exportAll Grammar.exportAll := by
  refine bind (symbol rfl) fun _ => ifTakes (by simp) (bind listedName fun _ => ?_) ?_
  all_goals exact source hs

theorem exportNames (typesOnly : Bool) :
    Follows F last s s (Grammar.exportNames typesOnly) (Grammar.exportNames typesOnly) :=
  ifSees (by simp) (exportAll hs) (exportSome hs typesOnly)

variable (h : Agree F g g')

include h

theorem exportDefault : Follows F last s s g.exportDefault g'.exportDefault :=
  bind (decorators h) fun _ =>
    ite (bind takesWord fun a => bind word fun _ => weaken (classItem h a true)) <|
    ifTakes (by simp) (bind word fun _ => weaken (classItem h true true)) <|
    ifTakes (by simp) (weaken (classItem h false true)) <|
    ifTakes (by simp) (bind word fun _ => functionRest h hs true) <|
    ifTakes (by simp) (functionRest h hs true) <|
    ifTakes (by simp) (weaken (interfaceRest h)) <|
    bind (value h true) fun _ => bindStill (endStatement hs) fun _ => Still.pure

theorem exportRest : Follows F last s s g.exportRest g'.exportRest :=
  ifTakes (by simp) (exportDefault hs h) <|
    ifSees (by simp) (bindStill (exportNames hs false) fun _ => Still.pure) <|
    ifTakes (by simp) (bindStill (exportNames hs true) fun _ => Still.pure) <|
    ifTakes (by simp) (bind (takes (by simp)) fun _ =>
      bindStill (importEquals hs) fun _ => Still.pure) <|
    ifTakes (by simp) (bind (sequence h true) fun _ =>
      bindStill (endStatement hs) fun _ => Still.pure) <|
    ifTakes (by simp) (bind word fun _ => bind boundName fun _ =>
      bindStill (endStatement hs) fun _ => Still.pure) <|
    bind (decorators h) fun _ => ite (weaken (decoratedClass h)) <|
    bindStill (declaration h hs) fun
      | some _ => Still.pure
      | none => Still.refuse

/-! Items. -/

omit hs in
theorem decoratedExport : Follows F false s s g.decoratedExport g'.decoratedExport :=
  bind (decorators h) fun _ => bind require fun _ => bind (sees (by simp)) fun _ => require

/-- An export with its decorators, which only a class may have. -/
theorem exported (decorated : Option Unit) :
    Follows F last s s
      (do
        let i ← g.exportRest
        Parse.require (decorated.isNone || i matches .classType ..)
        Pure.pure i)
      (do
        let i ← g'.exportRest
        Parse.require ((move F.move decorated).isNone || i matches .classType ..)
        Pure.pure i) :=
  bindStill (exportRest hs h) fun i =>
    Still.bind (Still.requireOf (by cases decorated <;> cases i <;> rfl)) fun _ => Still.pure

omit hs in
theorem itemRule (hs : F.Nested s) : Follows F false s s g.itemRule g'.itemRule :=
  bind (attempt (decoratedExport h)) fun decorated =>
    ifTakes (by simp) (bindStill (importRest (.inr hs)) fun _ => Still.pure) <|
    ifTakes (by simp) (exported (.inr hs) h decorated) (statementRule h hs .top)

end Follows
end ApiSurface.Source
