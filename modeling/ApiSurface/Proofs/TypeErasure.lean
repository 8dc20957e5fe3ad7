import ApiSurface.TypeText
import ApiSurface.Proofs.Reading

/-! What the text of a type says nothing about: type parameters, marks of optional parameters and
of labelled elements, brackets around plain keys, and where constructs stand. Two types that agree
up to this have the same text. -/
namespace ApiSurface.Source

/-- An expression, wherever it stands. Of what names no member nothing is kept. -/
def Expression.unplaced : Expression → Expression
  | name n _ => name n 0
  | string v _ => string v 0
  | number s _ => number s 0
  | member e p => member e.unplaced p
  | _ => other 0

/-- A key of which only what its text tells is kept: only a chain of names needs brackets. -/
def Key.erased (k : Key) : Key := ⟨k.value matches .member _ _, k.value.unplaced⟩

mutual

/-- A type of which only what its text tells is kept. What has no type written gets the one that
stands for none. -/
def TypeTerm.erased : TypeTerm → TypeTerm
  | .keyword w => .keyword w
  | .this => .this
  | .string v => .string v
  | .number s => .number s
  | .bigint s => .bigint s
  | .boolean b => .boolean b
  | .template first holes => .template first (erasedHoles holes)
  | .reference path args => .reference path (erasedTypes args)
  | .query path args => .query path (erasedTypes args)
  | .queryImport source path own args =>
    .queryImport source path (erasedTypes own) (erasedTypes args)
  | .imported source path args => .imported source path (erasedTypes args)
  | .function _ ps r => .function [] (erasedParameters ps) r.erased
  | .constructor isAbstract _ ps r => .constructor isAbstract [] (erasedParameters ps) r.erased
  | .object ms => .object (erasedSignatures ms)
  | .array t => .array t.erased
  | .tuple es => .tuple (erasedElements es)
  | .optional t => .optional t.erased
  | .rest t => .rest t.erased
  | .union ts => .union (erasedTypes ts)
  | .intersection ts => .intersection (erasedTypes ts)
  | .conditional checked bound yes no =>
    .conditional checked.erased bound.erased yes.erased no.erased
  | .infer name bound => .infer name (erasedOption bound)
  | .parenthesized t => .parenthesized t.erased
  | .operator o t => .operator o t.erased
  | .indexed t i => .indexed t.erased i.erased
  | .mapped readonly name keys renamed isOptional value =>
    .mapped readonly name keys.erased (erasedOption renamed) isOptional (erasedOption value)
  | .predicate asserts subject t => .predicate asserts subject (erasedOption t)

def erasedOption : Option TypeTerm → Option TypeTerm
  | none => none
  | some t => some t.erased

/-- The type that is written, or the one that stands for none. -/
def erasedAnnotated : Option TypeTerm → Option TypeTerm
  | none => some (.keyword voidText)
  | some t => some t.erased

def erasedTypes : List TypeTerm → List TypeTerm
  | [] => []
  | t :: ts => t.erased :: erasedTypes ts

def erasedHoles : List Hole → List Hole
  | [] => []
  | .mk t chunk :: hs => .mk t.erased chunk :: erasedHoles hs

def Parameter.erased : Parameter → Parameter
  | .named n _ t => .named n false (erasedAnnotated t)
  | .rest n t => .rest n (erasedAnnotated t)
  | .restPattern _ => .restPattern 0
  | .arrayPattern _ => .arrayPattern 0
  | .objectPattern _ => .objectPattern 0

def erasedParameters : List Parameter → List Parameter
  | [] => []
  | p :: ps => p.erased :: erasedParameters ps

def Signature.erased : Signature → Signature
  | .property readonly key isOptional t =>
    .property readonly key.erased isOptional (erasedAnnotated t)
  | .method key isOptional _ ps r =>
    .method key.erased isOptional [] (erasedParameters ps) (erasedAnnotated r)
  | .getter key t => .getter key.erased (erasedAnnotated t)
  | .setter key p => .setter key.erased p.erased
  | .call _ ps r _ => .call [] (erasedParameters ps) (erasedAnnotated r) 0
  | .construct _ ps r _ => .construct [] (erasedParameters ps) (erasedAnnotated r) 0
  | .index readonly name keys t _ => .index readonly name keys.erased (erasedAnnotated t) 0

def erasedSignatures : List Signature → List Signature
  | [] => []
  | m :: ms => m.erased :: erasedSignatures ms

def TupleElement.erased : TupleElement → TupleElement
  | .plain t => .plain t.erased
  | .labelled takesRest label _ t => .labelled takesRest label false t.erased

def erasedElements : List TupleElement → List TupleElement
  | [] => []
  | e :: es => e.erased :: erasedElements es

end

theorem erasedTypes_eq_map (ts : List TypeTerm) : erasedTypes ts = ts.map TypeTerm.erased := by
  induction ts with
  | nil => rfl
  | cons t ts ih => rw [erasedTypes, ih, List.map_cons]

theorem erasedParameters_eq_map (ps : List Parameter) :
    erasedParameters ps = ps.map Parameter.erased := by
  induction ps with
  | nil => rfl
  | cons p ps ih => rw [erasedParameters, ih, List.map_cons]

theorem erasedSignatures_eq_map (ms : List Signature) :
    erasedSignatures ms = ms.map Signature.erased := by
  induction ms with
  | nil => rfl
  | cons m ms ih => rw [erasedSignatures, ih, List.map_cons]

theorem erasedElements_eq_map (es : List TupleElement) :
    erasedElements es = es.map TupleElement.erased := by
  induction es with
  | nil => rfl
  | cons e es ih => rw [erasedElements, ih, List.map_cons]

/-! The text of what is kept. -/

theorem Expression.path?_unplaced (e : Expression) : e.unplaced.path? = e.path? := by
  induction e with
  | member e p ih => cases p <;> simp [unplaced, path?, ih]
  | _ => rfl

/-- A chain of names is one name, or it is a shorter chain with one more name behind a point. -/
theorem Expression.path?_cases {e : Expression} {path : List String} (h : e.path? = some path) :
    (∃ n o, e = name n o ∧ path = [n]) ∨
      ∃ e' p path', e = member e' (some p) ∧ e'.path? = some path' ∧ path' ≠ [] ∧
        path = path' ++ [p] := by
  induction e generalizing path with
  | name n o =>
    cases h
    exact .inl ⟨n, o, rfl, rfl⟩
  | member e p ih =>
    cases p with
    | none => cases h
    | some p =>
      obtain ⟨path', hp, rfl⟩ := Option.map_eq_some_iff.1 h
      refine .inr ⟨e, p, path', rfl, hp, ?_, rfl⟩
      obtain ⟨n, o, rfl, rfl⟩ | ⟨_, _, _, rfl, -, -, rfl⟩ := ih hp <;> simp
  | _ => cases h

/-- Chains of the same names agree up to where they stand. -/
theorem Expression.unplaced_eq_of_path? {e e' : Expression} {path : List String}
    (h : e.path? = some path) (h' : e'.path? = some path) : e.unplaced = e'.unplaced := by
  induction e generalizing e' path with
  | name n o =>
    cases h
    obtain ⟨n', o', rfl, e⟩ | ⟨_, _, path', rfl, -, hne, e⟩ := path?_cases h'
    · cases e
      rfl
    · simp [List.singleton_eq_append_iff, hne] at e
  | member e p ih =>
    obtain ⟨_, _, e, -⟩ | ⟨_, p, path', e, hp, hne, rfl⟩ := path?_cases h
    · cases e
    cases e
    obtain ⟨n', o', rfl, e⟩ | ⟨e'', p', path'', rfl, hp', -, e⟩ := path?_cases h'
    · simp [List.append_eq_singleton_iff, hne] at e
    · obtain ⟨rfl, e⟩ := List.append_inj' e rfl
      obtain rfl : p = p' := by simpa using e
      simp [unplaced, ih hp hp']
  | _ => cases h

@[simp] theorem Key.text_erased {k : Key} {s : String} :
    k.erased.text = .ok s ↔ k.text = .ok s := by
  obtain ⟨computed, e⟩ := k
  cases e with
  | member e p =>
    have hp := Expression.path?_unplaced (.member e p)
    simp only [erased, text, Expression.unplaced, Expression.keyText] at hp ⊢
    rw [hp]
    split <;> simp [refused]
  | _ => simp [erased, text, Expression.unplaced, Expression.keyText, refused]

mutual

/-- The text of a type is that of what is kept of it. -/
theorem TypeTerm.text_erased {t : TypeTerm} {s : String} :
    t.erased.text = .ok s ↔ t.text = .ok s := by
  cases t with
  | template first holes =>
    simp only [TypeTerm.erased, TypeTerm.text, Except.bind_eq_ok, holesText_erased]
  | reference path args =>
    simp only [TypeTerm.erased, TypeTerm.text, Except.bind_eq_ok, typeTexts_erased]
  | query path args =>
    simp only [TypeTerm.erased, TypeTerm.text, Except.bind_eq_ok, typeTexts_erased]
  | queryImport source path own args =>
    simp only [TypeTerm.erased, TypeTerm.text, Except.bind_eq_ok, typeTexts_erased]
  | imported source path args =>
    simp only [TypeTerm.erased, TypeTerm.text, Except.bind_eq_ok, typeTexts_erased]
  | function gs ps r =>
    simp only [TypeTerm.erased, TypeTerm.text, Except.bind_eq_ok, parameterTexts_erased,
      TypeTerm.text_erased]
  | constructor isAbstract gs ps r =>
    simp only [TypeTerm.erased, TypeTerm.text, Except.bind_eq_ok, parameterTexts_erased,
      TypeTerm.text_erased]
  | object ms =>
    cases ms with
    | nil => rfl
    | cons m ms =>
      simp only [TypeTerm.erased, erasedSignatures, TypeTerm.text, Except.bind_eq_ok,
        Signature.text_erased, signaturesText_erased]
  | tuple es => simp only [TypeTerm.erased, TypeTerm.text, Except.bind_eq_ok, elementsText_erased]
  | array t => simp only [TypeTerm.erased, TypeTerm.text, Except.bind_eq_ok, TypeTerm.text_erased]
  | optional t =>
    simp only [TypeTerm.erased, TypeTerm.text, Except.bind_eq_ok, TypeTerm.text_erased]
  | rest t => simp only [TypeTerm.erased, TypeTerm.text, Except.bind_eq_ok, TypeTerm.text_erased]
  | union ts => simp only [TypeTerm.erased, TypeTerm.text, Except.bind_eq_ok, typeTexts_erased]
  | intersection ts =>
    simp only [TypeTerm.erased, TypeTerm.text, Except.bind_eq_ok, typeTexts_erased]
  | conditional checked bound yes no =>
    simp only [TypeTerm.erased, TypeTerm.text, Except.bind_eq_ok, TypeTerm.text_erased]
  | infer name bound =>
    simp only [TypeTerm.erased, TypeTerm.text, Except.bind_eq_ok, behindText_erased]
  | parenthesized t =>
    simp only [TypeTerm.erased, TypeTerm.text, Except.bind_eq_ok, TypeTerm.text_erased]
  | operator o t =>
    simp only [TypeTerm.erased, TypeTerm.text, Except.bind_eq_ok, TypeTerm.text_erased]
  | indexed t i =>
    simp only [TypeTerm.erased, TypeTerm.text, Except.bind_eq_ok, TypeTerm.text_erased]
  | mapped readonly name keys renamed isOptional value =>
    simp only [TypeTerm.erased, TypeTerm.text, Except.bind_eq_ok, TypeTerm.text_erased,
      behindText_erased]
  | predicate asserts subject t =>
    simp only [TypeTerm.erased, TypeTerm.text, Except.bind_eq_ok, behindText_erased]
  | _ => rfl

theorem behindText_erased {front : String} {t : Option TypeTerm} {s : String} :
    behindText front (erasedOption t) = .ok s ↔ behindText front t = .ok s := by
  cases t with
  | none => rfl
  | some t => simp only [erasedOption, behindText, Except.bind_eq_ok, TypeTerm.text_erased]

theorem annotationText_erased {t : Option TypeTerm} {s : String} :
    annotationText (erasedAnnotated t) = .ok s ↔ annotationText t = .ok s := by
  cases t with
  | none => rfl
  | some t => exact TypeTerm.text_erased

theorem typeTexts_erased {ts : List TypeTerm} {texts : List String} :
    typeTexts (erasedTypes ts) = .ok texts ↔ typeTexts ts = .ok texts := by
  cases ts with
  | nil => rfl
  | cons t ts =>
    simp only [erasedTypes, typeTexts, Except.bind_eq_ok, TypeTerm.text_erased, typeTexts_erased]

theorem holesText_erased {hs : List Hole} {s : String} :
    holesText (erasedHoles hs) = .ok s ↔ holesText hs = .ok s := by
  cases hs with
  | nil => rfl
  | cons hole hs =>
    obtain ⟨t, chunk⟩ := hole
    simp only [erasedHoles, holesText, Except.bind_eq_ok, TypeTerm.text_erased, holesText_erased]

theorem Parameter.parts_erased {p : Parameter} {parts : String × String} :
    p.erased.parts = .ok parts ↔ p.parts = .ok parts := by
  cases p with
  | named n o t =>
    simp only [Parameter.erased, Parameter.parts, Except.bind_eq_ok, annotationText_erased]
  | rest n t =>
    simp only [Parameter.erased, Parameter.parts, Except.bind_eq_ok, annotationText_erased]
  | _ => simp [Parameter.erased, Parameter.parts, refused]

theorem parameterTexts_erased {ps : List Parameter} {texts : List String} :
    parameterTexts (erasedParameters ps) = .ok texts ↔ parameterTexts ps = .ok texts := by
  cases ps with
  | nil => rfl
  | cons p ps =>
    simp only [erasedParameters, parameterTexts, Except.bind_eq_ok, Parameter.parts_erased,
      parameterTexts_erased]

theorem Signature.text_erased {m : Signature} {s : String} :
    m.erased.text = .ok s ↔ m.text = .ok s := by
  cases m <;> simp only [Signature.erased, Signature.text, Except.bind_eq_ok, Key.text_erased,
    annotationText_erased, parameterTexts_erased, Parameter.parts_erased, TypeTerm.text_erased]

theorem signaturesText_erased {ms : List Signature} {texts : List String} :
    signaturesText (erasedSignatures ms) = .ok texts ↔ signaturesText ms = .ok texts := by
  cases ms with
  | nil => rfl
  | cons m ms =>
    simp only [erasedSignatures, signaturesText, Except.bind_eq_ok, Signature.text_erased,
      signaturesText_erased]

theorem TupleElement.text_erased {e : TupleElement} {s : String} :
    e.erased.text = .ok s ↔ e.text = .ok s := by
  cases e <;> simp only [TupleElement.erased, TupleElement.text, Except.bind_eq_ok,
    TypeTerm.text_erased]

theorem elementsText_erased {es : List TupleElement} {texts : List String} :
    elementsText (erasedElements es) = .ok texts ↔ elementsText es = .ok texts := by
  cases es with
  | nil => rfl
  | cons e es =>
    simp only [erasedElements, elementsText, Except.bind_eq_ok, TupleElement.text_erased,
      elementsText_erased]

end

/-- Types that agree up to what is erased have the same text. -/
theorem TypeTerm.text_eq_of_erased {t t' : TypeTerm} (h : t.erased = t'.erased) {s : String} :
    t.text = .ok s ↔ t'.text = .ok s := by
  rw [← text_erased, h, text_erased]

end ApiSurface.Source
