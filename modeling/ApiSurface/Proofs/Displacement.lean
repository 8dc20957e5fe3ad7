import ApiSurface.Extraction
import ApiSurface.Proofs.Reading

/-! Syntax trees at other places. A tree holds the places of some of its constructs, and these can
be moved. What a tree declares does not depend on places; where it declares nothing, the place of
the construct that is refused moves with the tree. -/
namespace ApiSurface

/-- Data with places of a text in it, which can be moved. -/
class Placed (α : Type) where
  move : (Nat → Nat) → α → α

export Placed (move)

/-- Data without places. -/
class Unplaced (α : Type) [Placed α] : Prop where
  move_eq : ∀ (f : Nat → Nat) (a : α), move f a = a

section Plain

variable {α β : Type} [Placed α] [Placed β]

instance : Placed Unit := ⟨fun _ u => u⟩
instance : Placed Bool := ⟨fun _ b => b⟩
instance : Placed String := ⟨fun _ s => s⟩
instance : Placed Nat := ⟨fun f o => f o⟩
instance : Placed (Option α) := ⟨fun f => Option.map (move f)⟩
instance : Placed (List α) := ⟨fun f => List.map (move f)⟩
instance : Placed (α × β) := ⟨fun f x => (move f x.1, move f x.2)⟩

variable (f : Nat → Nat)

@[simp] theorem move_unit (u : Unit) : move f u = u := rfl
@[simp] theorem move_bool (b : Bool) : move f b = b := rfl
@[simp] theorem move_string (s : String) : move f s = s := rfl
@[simp] theorem move_nat (o : Nat) : move f o = f o := rfl
@[simp] theorem move_none : move f (none : Option α) = none := rfl
@[simp] theorem move_some (a : α) : move f (some a) = some (move f a) := rfl
@[simp] theorem move_nil : move f ([] : List α) = [] := rfl
@[simp] theorem move_cons (a : α) (as : List α) : move f (a :: as) = move f a :: move f as := rfl
@[simp] theorem move_mk (a : α) (b : β) : move f (a, b) = (move f a, move f b) := rfl

theorem move_list (as : List α) : move f as = as.map (move f) := rfl

@[simp] theorem move_append (as bs : List α) : move f (as ++ bs) = move f as ++ move f bs :=
  List.map_append

@[simp] theorem isEmpty_move (as : List α) : (move f as).isEmpty = as.isEmpty := by cases as <;> rfl

@[simp] theorem isSome_move (a : Option α) : (move f a).isSome = a.isSome := by cases a <;> rfl

@[simp] theorem isNone_move (a : Option α) : (move f a).isNone = a.isNone := by cases a <;> rfl

instance : Unplaced Unit := ⟨fun _ _ => rfl⟩
instance : Unplaced Bool := ⟨fun _ _ => rfl⟩
instance : Unplaced String := ⟨fun _ _ => rfl⟩

instance [Unplaced α] : Unplaced (Option α) :=
  ⟨fun f a => by cases a <;> simp [Unplaced.move_eq]⟩

instance [Unplaced α] : Unplaced (List α) :=
  ⟨fun f as => by induction as <;> simp [Unplaced.move_eq, *]⟩

instance [Unplaced α] [Unplaced β] : Unplaced (α × β) :=
  ⟨fun f x => by simp [Placed.move, Unplaced.move_eq]⟩

end Plain

/-! Trees. -/

namespace Source

variable (f : Nat → Nat)

def Expression.move : Expression → Expression
  | name n o => name n (f o)
  | string v o => string v (f o)
  | number s o => number s (f o)
  | boolean o => boolean (f o)
  | bigint o => bigint (f o)
  | member e p => member e.move p
  | unary e o => unary e.move (f o)
  | .instance e => .instance e.move
  | other o => other (f o)

def Key.move (k : Key) : Key := ⟨k.computed, k.value.move f⟩

mutual

def TypeTerm.move : TypeTerm → TypeTerm
  | .keyword w => .keyword w
  | .this => .this
  | .string v => .string v
  | .number s => .number s
  | .bigint s => .bigint s
  | .boolean b => .boolean b
  | .template first holes => .template first (moveHoles holes)
  | .reference path args => .reference path (moveTypes args)
  | .query path args => .query path (moveTypes args)
  | .queryImport source path own args => .queryImport source path (moveTypes own) (moveTypes args)
  | .imported source path args => .imported source path (moveTypes args)
  | .function gs ps r => .function (moveGenerics gs) (moveParameters ps) r.move
  | .constructor isAbstract gs ps r =>
    .constructor isAbstract (moveGenerics gs) (moveParameters ps) r.move
  | .object ms => .object (moveSignatures ms)
  | .array t => .array t.move
  | .tuple es => .tuple (moveElements es)
  | .optional t => .optional t.move
  | .rest t => .rest t.move
  | .union ts => .union (moveTypes ts)
  | .intersection ts => .intersection (moveTypes ts)
  | .conditional checked bound yes no => .conditional checked.move bound.move yes.move no.move
  | .infer name bound => .infer name (moveType? bound)
  | .parenthesized t => .parenthesized t.move
  | .operator o t => .operator o t.move
  | .indexed t i => .indexed t.move i.move
  | .mapped readonly name keys renamed isOptional value =>
    .mapped readonly name keys.move (moveType? renamed) isOptional (moveType? value)
  | .predicate asserts subject t => .predicate asserts subject (moveType? t)

def moveType? : Option TypeTerm → Option TypeTerm
  | none => none
  | some t => some t.move

def moveTypes : List TypeTerm → List TypeTerm
  | [] => []
  | t :: ts => t.move :: moveTypes ts

def moveHoles : List Hole → List Hole
  | [] => []
  | .mk t chunk :: hs => .mk t.move chunk :: moveHoles hs

def moveGenerics : List TypeParameter → List TypeParameter
  | [] => []
  | .mk ms name bound preset :: gs =>
    .mk ms name (moveType? bound) (moveType? preset) :: moveGenerics gs

def Parameter.move : Parameter → Parameter
  | .named n isOptional t => .named n isOptional (moveType? t)
  | .rest n t => .rest n (moveType? t)
  | .restPattern o => .restPattern (f o)
  | .arrayPattern o => .arrayPattern (f o)
  | .objectPattern o => .objectPattern (f o)

def moveParameters : List Parameter → List Parameter
  | [] => []
  | p :: ps => p.move :: moveParameters ps

def Signature.move : Signature → Signature
  | .property readonly key isOptional t => .property readonly (key.move f) isOptional (moveType? t)
  | .method key isOptional gs ps r =>
    .method (key.move f) isOptional (moveGenerics gs) (moveParameters ps) (moveType? r)
  | .getter key t => .getter (key.move f) (moveType? t)
  | .setter key p => .setter (key.move f) p.move
  | .call gs ps r o => .call (moveGenerics gs) (moveParameters ps) (moveType? r) (f o)
  | .construct gs ps r o => .construct (moveGenerics gs) (moveParameters ps) (moveType? r) (f o)
  | .index readonly name keys t o => .index readonly name keys.move (moveType? t) (f o)

def moveSignatures : List Signature → List Signature
  | [] => []
  | m :: ms => m.move :: moveSignatures ms

def TupleElement.move : TupleElement → TupleElement
  | .plain t => .plain t.move
  | .labelled takesRest label isOptional t => .labelled takesRest label isOptional t.move

def moveElements : List TupleElement → List TupleElement
  | [] => []
  | e :: es => e.move :: moveElements es

end

def Hole.move : Hole → Hole
  | .mk t chunk => .mk (t.move f) chunk

def TypeParameter.move : TypeParameter → TypeParameter
  | .mk ms name bound preset => .mk ms name (moveType? f bound) (moveType? f preset)

def ClassMember.move : ClassMember → ClassMember
  | .constructor key ps => .constructor (key.move f) (moveParameters f ps)
  | .method key ps r => .method (key.move f) (moveParameters f ps) (moveType? f r)
  | .field key t e => .field (key.move f) (moveType? f t) (e.map (·.move f))
  | .empty => .empty
  | .privateMethod o => .privateMethod (f o)
  | .privateField o => .privateField (f o)
  | .index o => .index (f o)
  | .staticBlock o => .staticBlock (f o)
  | .accessor o => .accessor (f o)

def Variable.move : Variable → Variable
  | .named n t e => .named n (moveType? f t) (e.map (·.move f))
  | .pattern o => .pattern (f o)

def Item.move : Item → Item
  | .enumeration n vs => .enumeration n vs
  | .classType n s ms => .classType n (s.map (·.move f)) (ms.map (·.move f))
  | .interface n bs ms => .interface n (bs.map (·.move f)) (moveSignatures f ms)
  | .function n ps => .function n (moveParameters f ps)
  | .typeAlias n t => .typeAlias n (t.move f)
  | .variableList vs => .variableList (vs.map (·.move f))
  | .namespaceBlock o => .namespaceBlock (f o)
  | .augmentation o => .augmentation (f o)
  | .using o => .using (f o)
  | .statement o => .statement (f o)
  | .silent => .silent

/-! Trees as data with places. -/

instance : Placed Expression := ⟨Expression.move⟩
instance : Placed Key := ⟨Key.move⟩
instance : Placed TypeTerm := ⟨TypeTerm.move⟩
instance : Placed Hole := ⟨Hole.move⟩
instance : Placed TypeParameter := ⟨TypeParameter.move⟩
instance : Placed Parameter := ⟨Parameter.move⟩
instance : Placed Signature := ⟨Signature.move⟩
instance : Placed TupleElement := ⟨TupleElement.move⟩
instance : Placed ClassMember := ⟨ClassMember.move⟩
instance : Placed Variable := ⟨Variable.move⟩
instance : Placed Item := ⟨Item.move⟩

@[simp] theorem move_expression (e : Expression) : move f e = e.move f := rfl
@[simp] theorem move_key (k : Key) : move f k = k.move f := rfl
@[simp] theorem move_type (t : TypeTerm) : move f t = t.move f := rfl
@[simp] theorem move_hole (h : Hole) : move f h = h.move f := rfl
@[simp] theorem move_generic (p : TypeParameter) : move f p = p.move f := rfl
@[simp] theorem move_parameter (p : Parameter) : move f p = p.move f := rfl
@[simp] theorem move_signature (m : Signature) : move f m = m.move f := rfl
@[simp] theorem move_element (e : TupleElement) : move f e = e.move f := rfl
@[simp] theorem move_member (m : ClassMember) : move f m = m.move f := rfl
@[simp] theorem move_variable (v : Variable) : move f v = v.move f := rfl
@[simp] theorem move_item (i : Item) : move f i = i.move f := rfl

attribute [simp] Expression.move Key.move TypeTerm.move Hole.move TypeParameter.move Parameter.move
  Signature.move TupleElement.move ClassMember.move Variable.move Item.move

@[simp] theorem moveType?_eq (t : Option TypeTerm) : moveType? f t = move f t := by cases t <;> rfl

@[simp] theorem moveTypes_eq (ts : List TypeTerm) : moveTypes f ts = move f ts := by
  induction ts <;> simp [moveTypes, *]

@[simp] theorem moveHoles_eq (hs : List Hole) : moveHoles f hs = move f hs := by
  induction hs with
  | nil => rfl
  | cons h hs ih =>
    cases h
    simp [moveHoles, Hole.move, ih]

@[simp] theorem moveGenerics_eq (gs : List TypeParameter) : moveGenerics f gs = move f gs := by
  induction gs with
  | nil => rfl
  | cons p gs ih =>
    cases p
    simp [moveGenerics, TypeParameter.move, ih]

@[simp] theorem moveParameters_eq (ps : List Parameter) : moveParameters f ps = move f ps := by
  induction ps <;> simp [moveParameters, *]

@[simp] theorem moveSignatures_eq (ms : List Signature) : moveSignatures f ms = move f ms := by
  induction ms <;> simp [moveSignatures, *]

@[simp] theorem moveElements_eq (es : List TupleElement) : moveElements f es = move f es := by
  induction es <;> simp [moveElements, *]

@[simp] theorem map_expression (e : Option Expression) : e.map (·.move f) = move f e := rfl
@[simp] theorem map_expressions (es : List Expression) : es.map (·.move f) = move f es := rfl
@[simp] theorem map_members (ms : List ClassMember) : ms.map (·.move f) = move f ms := rfl
@[simp] theorem map_variables (vs : List Variable) : vs.map (·.move f) = move f vs := rfl

@[simp] theorem Expression.offset_move (e : Expression) : (e.move f).offset = f e.offset := by
  induction e <;> simp_all [move, offset]

@[simp] theorem Expression.path?_move (e : Expression) : (e.move f).path? = e.path? := by
  induction e with
  | member e p ih => cases p <;> simp [move, path?, ih]
  | _ => rfl

end Source

/-! What trees declare. -/

open Source

def Refusal.move (f : Nat → Nat) (r : Refusal) : Refusal := { r with offset := f r.offset }

section Results

variable {ε ε' α β : Type}

theorem Except.mapError_bind (h : ε → ε') (x : Except ε α) (k : α → Except ε β) :
    (x >>= k).mapError h = x.mapError h >>= fun a => (k a).mapError h := by cases x <;> rfl

theorem Except.mapError_map (h : ε → ε') (x : Except ε α) (k : α → β) :
    (k <$> x).mapError h = k <$> x.mapError h := by cases x <;> rfl

/-- Elements that are mapped alike make lists that are. -/
theorem Except.mapM_map {γ : Type} (h : ε → ε') {m : α → γ} {k : α → Except ε β}
    {k' : γ → Except ε' β} (hk : ∀ a, k' (m a) = (k a).mapError h) (as : List α) :
    (as.map m).mapM k' = (as.mapM k).mapError h := by
  induction as with
  | nil => rfl
  | cons a as ih =>
    simp only [List.map_cons, List.mapM_cons, hk, ih, Except.mapError_bind, Except.mapError_pure]

end Results

section Texts

variable (f : Nat → Nat)

@[simp] theorem mapError_refused {α : Type} (c : Construct) (o : Nat) :
    (refused c o : Except Refusal α).mapError (·.move f) = refused c (f o) := rfl

namespace Source

theorem Expression.keyText_move (e : Expression) :
    (e.move f).keyText = e.keyText.mapError (·.move f) := by
  cases e with
  | member e p =>
    have hp := Expression.path?_move f (.member e p)
    simp only [move] at hp
    simp only [move, keyText, hp]
    split <;> simp
  | «instance» e => simp only [move, keyText, offset, offset_move, mapError_refused]
  | _ => rfl

theorem Key.text_move (k : Key) : (k.move f).text = k.text.mapError (·.move f) :=
  Expression.keyText_move f k.value

mutual

theorem TypeTerm.text_move (t : TypeTerm) : (t.move f).text = t.text.mapError (·.move f) := by
  cases t with
  | template first holes =>
    simp only [TypeTerm.move, TypeTerm.text, holesText_move, Except.mapError_bind,
      Except.mapError_pure]
  | reference path args | query path args | imported source path args | union ts
    | intersection ts =>
    simp only [TypeTerm.move, TypeTerm.text, typeTexts_move, Except.mapError_bind,
      Except.mapError_pure]
  | queryImport source path own args =>
    simp only [TypeTerm.move, TypeTerm.text, typeTexts_move, Except.mapError_bind,
      Except.mapError_pure]
  | function gs ps r | constructor isAbstract gs ps r =>
    simp only [TypeTerm.move, TypeTerm.text, parameterTexts_move, r.text_move,
      Except.mapError_bind, Except.mapError_pure]
  | object ms =>
    cases ms with
    | nil => rfl
    | cons m ms =>
      simp only [TypeTerm.move, moveSignatures, TypeTerm.text, m.text_move, signaturesText_move,
        Except.mapError_bind, Except.mapError_pure]
  | tuple es =>
    simp only [TypeTerm.move, TypeTerm.text, elementsText_move, Except.mapError_bind,
      Except.mapError_pure]
  | array t | optional t | rest t | parenthesized t | operator o t =>
    simp only [TypeTerm.move, TypeTerm.text, t.text_move, Except.mapError_bind,
      Except.mapError_pure]
  | conditional checked bound yes no =>
    simp only [TypeTerm.move, TypeTerm.text, checked.text_move, bound.text_move, yes.text_move,
      no.text_move, Except.mapError_bind, Except.mapError_pure]
  | infer name bound | predicate asserts subject bound =>
    simp only [TypeTerm.move, TypeTerm.text, behindText_move, Except.mapError_bind,
      Except.mapError_pure]
  | indexed t i =>
    simp only [TypeTerm.move, TypeTerm.text, t.text_move, i.text_move, Except.mapError_bind,
      Except.mapError_pure]
  | mapped readonly name keys renamed isOptional value =>
    simp only [TypeTerm.move, TypeTerm.text, keys.text_move, behindText_move,
      Except.mapError_bind, Except.mapError_pure]
  | _ => rfl

theorem behindText_move (word : String) (t : Option TypeTerm) :
    behindText word (moveType? f t) = (behindText word t).mapError (·.move f) := by
  cases t with
  | none => rfl
  | some t =>
    simp only [moveType?, behindText, t.text_move, Except.mapError_bind, Except.mapError_pure]

theorem annotationText_move (t : Option TypeTerm) :
    annotationText (moveType? f t) = (annotationText t).mapError (·.move f) := by
  cases t with
  | none => rfl
  | some t => exact t.text_move

theorem typeTexts_move (ts : List TypeTerm) :
    typeTexts (moveTypes f ts) = (typeTexts ts).mapError (·.move f) := by
  cases ts with
  | nil => rfl
  | cons t ts =>
    simp only [moveTypes, typeTexts, t.text_move, typeTexts_move ts, Except.mapError_bind,
      Except.mapError_pure]

theorem holesText_move (hs : List Hole) :
    holesText (moveHoles f hs) = (holesText hs).mapError (·.move f) := by
  cases hs with
  | nil => rfl
  | cons h hs =>
    cases h with
    | mk t chunk =>
      simp only [moveHoles, holesText, t.text_move, holesText_move hs, Except.mapError_bind,
        Except.mapError_pure]

theorem Parameter.parts_move (p : Parameter) :
    (p.move f).parts = p.parts.mapError (·.move f) := by
  cases p with
  | named n isOptional t | rest n t =>
    simp only [Parameter.move, Parameter.parts, annotationText_move, Except.mapError_bind,
      Except.mapError_pure]
  | _ => rfl

theorem parameterTexts_move (ps : List Parameter) :
    parameterTexts (moveParameters f ps) = (parameterTexts ps).mapError (·.move f) := by
  cases ps with
  | nil => rfl
  | cons p ps =>
    simp only [moveParameters, parameterTexts, p.parts_move, parameterTexts_move ps,
      Except.mapError_bind, Except.mapError_pure]

theorem Signature.text_move (m : Signature) : (m.move f).text = m.text.mapError (·.move f) := by
  cases m with
  | setter key p =>
    simp only [Signature.move, Signature.text, Key.text_move, p.parts_move, Except.mapError_bind,
      Except.mapError_pure]
  | index readonly name keys t o =>
    simp only [Signature.move, Signature.text, keys.text_move, annotationText_move,
      Except.mapError_bind, Except.mapError_pure]
  | _ =>
    simp only [Signature.move, Signature.text, Key.text_move, parameterTexts_move,
      annotationText_move, Except.mapError_bind, Except.mapError_pure]

theorem signaturesText_move (ms : List Signature) :
    signaturesText (moveSignatures f ms) = (signaturesText ms).mapError (·.move f) := by
  cases ms with
  | nil => rfl
  | cons m ms =>
    simp only [moveSignatures, signaturesText, m.text_move, signaturesText_move ms,
      Except.mapError_bind, Except.mapError_pure]

theorem TupleElement.text_move (e : TupleElement) :
    (e.move f).text = e.text.mapError (·.move f) := by
  cases e with
  | plain t => exact t.text_move
  | labelled takesRest label isOptional t =>
    simp only [TupleElement.move, TupleElement.text, t.text_move, Except.mapError_bind,
      Except.mapError_pure]

theorem elementsText_move (es : List TupleElement) :
    elementsText (moveElements f es) = (elementsText es).mapError (·.move f) := by
  cases es with
  | nil => rfl
  | cons e es =>
    simp only [moveElements, elementsText, e.text_move, elementsText_move es,
      Except.mapError_bind, Except.mapError_pure]

end

end Source

/-! Declarations. -/

theorem declaration_move (p : Parameter) :
    (p.move f).declaration = p.declaration.mapError (·.move f) := by
  rw [Parameter.declaration, Parameter.declaration, Parameter.parts_move, Except.mapError_bind]
  rfl

theorem ambientDeclaration_move (p : Parameter) :
    (p.move f).ambientDeclaration = p.ambientDeclaration.mapError (·.move f) := by
  cases p with
  | arrayPattern o | objectPattern o => rfl
  | _ => exact declaration_move f _

theorem mapM_declaration_move (ps : List Parameter) :
    (moveParameters f ps).mapM (fun p : Parameter => p.declaration) =
      (ps.mapM fun p : Parameter => p.declaration).mapError (·.move f) := by
  rw [moveParameters_eq]
  exact Except.mapM_map _ (declaration_move f) ps

theorem mapM_ambientDeclaration_move (ps : List Parameter) :
    (moveParameters f ps).mapM (fun p : Parameter => p.ambientDeclaration) =
      (ps.mapM fun p : Parameter => p.ambientDeclaration).mapError (·.move f) := by
  rw [moveParameters_eq]
  exact Except.mapM_map _ (ambientDeclaration_move f) ps

theorem literalType_move (e : Expression) :
    (e.move f).literalType = e.literalType.mapError (·.move f) := by
  induction e with
  | unary e o ih => exact ih
  | member e p | «instance» e => simp [Expression.move, Expression.literalType, Expression.offset]
  | _ => rfl

theorem propertyType_move (t : Option TypeTerm) (e : Option Expression) :
    propertyType (moveType? f t) (e.map (·.move f)) =
      (propertyType t e).mapError (·.move f) := by
  cases t with
  | some t => exact t.text_move f
  | none =>
    cases e with
    | some e => exact literalType_move f e
    | none => rfl

theorem memberText_move (k : Key) : (k.move f).memberText = k.memberText.mapError (·.move f) := by
  obtain ⟨computed, e⟩ := k
  cases e with
  | bigint o => cases computed <;> rfl
  | _ => cases computed <;> exact Key.text_move f ⟨_, _⟩

theorem classMember_move (m : ClassMember) :
    (m.move f).declaration = m.declaration.mapError (·.move f) := by
  cases m with
  | constructor key ps =>
    simp only [ClassMember.move, ClassMember.declaration, mapM_ambientDeclaration_move,
      memberText_move, Except.mapError_bind, Except.mapError_pure]
  | method key ps r =>
    simp only [ClassMember.move, ClassMember.declaration, mapM_ambientDeclaration_move,
      memberText_move, annotationText_move, Except.mapError_bind, Except.mapError_pure]
  | field key t e =>
    simp only [ClassMember.move, ClassMember.declaration, memberText_move, propertyType_move,
      Except.mapError_bind, Except.mapError_pure]
  | _ => rfl

theorem signature_move (m : Signature) :
    (m.move f).declaration = m.declaration.mapError (·.move f) := by
  cases m with
  | property readonly key isOptional t | getter key t =>
    simp only [Signature.move, Signature.declaration, Key.text_move, annotationText_move,
      Except.mapError_bind, Except.mapError_pure]
  | method key isOptional gs ps r =>
    simp only [Signature.move, Signature.declaration, mapM_declaration_move, Key.text_move,
      annotationText_move, Except.mapError_bind, Except.mapError_pure]
  | setter key p =>
    simp only [Signature.move, Signature.declaration, declaration_move, Key.text_move,
      Except.mapError_bind, Except.mapError_pure]
  | _ => rfl

theorem mapM_signature_move (ms : List Signature) :
    (moveSignatures f ms).mapM (fun m : Signature => m.declaration) =
      (ms.mapM fun m : Signature => m.declaration).mapError (·.move f) := by
  rw [moveSignatures_eq]
  exact Except.mapM_map _ (signature_move f) ms

theorem baseText_move (c : Construct) (e : Expression) :
    baseText c (e.move f) = (baseText c e).mapError (·.move f) := by
  rw [baseText, baseText, Expression.path?_move, Expression.offset_move]
  split <;> rfl

theorem variable_move (v : Variable) :
    (v.move f).declaration = v.declaration.mapError (·.move f) := by
  cases v with
  | named n t e =>
    simp only [Variable.move, Variable.declaration, propertyType_move, Except.mapError_bind,
      Except.mapError_pure]
  | pattern o => rfl

theorem superclass_move (s : Option Expression) :
    (s.map (·.move f)).mapM (baseText .superclassExpression) =
      (s.mapM (baseText .superclassExpression)).mapError (·.move f) := by
  cases s with
  | none => rfl
  | some e =>
    simp only [Option.map_some, Option.mapM_some, baseText_move, Except.mapError_map]

theorem declarations_move (i : Item) :
    (i.move f).declarations = i.declarations.mapError (·.move f) := by
  cases i with
  | classType n s ms =>
    simp only [Item.move, Item.declarations, superclass_move,
      Except.mapM_map _ (classMember_move f) ms, Except.mapError_bind, Except.mapError_pure]
  | interface n bs ms =>
    simp only [Item.move, Item.declarations, Except.mapM_map _ (baseText_move f _) bs,
      mapM_signature_move, Except.mapError_bind, Except.mapError_pure]
  | function n ps =>
    simp only [Item.move, Item.declarations, mapM_ambientDeclaration_move, Except.mapError_bind,
      Except.mapError_pure]
  | typeAlias n t =>
    simp only [Item.move, Item.declarations, t.text_move, Except.mapError_bind,
      Except.mapError_pure]
  | variableList vs => exact Except.mapM_map _ (variable_move f) vs
  | _ => rfl

/-- What items declare moves with them. -/
theorem structureOf_move (items : List Item) :
    structureOf (move f items) = (structureOf items).mapError (·.move f) := by
  rw [structureOf, structureOf, Except.mapError_map]
  exact congrArg _ (Except.mapM_map _ (declarations_move f) items)

end Texts
end ApiSurface
