import ApiSurface.Proofs.MethodTexts

/-! Line feeds in the texts of a structure. A text joins strings of the syntax tree with words and
signs of its own, and in those there is no line feed: it comes into a text only with a string of the
tree, such as a string literal after its escapes are read. -/
namespace ApiSurface

/-- A text without a line feed. -/
def OneLine (s : String) : Prop := '\n' ∉ s.toList

/-- None of the texts has a line feed. -/
abbrev AllOneLine (ss : List String) : Prop := ∀ s ∈ ss, OneLine s

instance (s : String) : Decidable (OneLine s) := inferInstanceAs (Decidable (¬ _))

section OneLine

variable {s t : String} {ss : List String}

@[simp] theorem oneLine_append : OneLine (s ++ t) ↔ OneLine s ∧ OneLine t := by
  simp [OneLine, not_or]

theorem OneLine.intercalate (hs : OneLine s) (hss : AllOneLine ss) :
    OneLine (s.intercalate ss) := by
  induction ss with
  | nil => exact (by decide : OneLine "")
  | cons t ss ih =>
    obtain ⟨ht, hss⟩ := List.forall_mem_cons.mp hss
    cases ss with
    | nil => exact ht
    | cons u ss =>
      rw [String.intercalate_cons_cons]
      exact oneLine_append.mpr ⟨oneLine_append.mpr ⟨ht, hs⟩, ih hss⟩

theorem OneLine.commas (h : AllOneLine ss) : OneLine (commas ss) :=
  .intercalate (by decide) h

theorem OneLine.dotted (h : AllOneLine ss) : OneLine (dotted ss) :=
  .intercalate (by decide) h

theorem OneLine.join (h : AllOneLine ss) : OneLine (String.join ss) := by
  induction ss with
  | nil => exact (by decide : OneLine "")
  | cons t ss ih =>
    obtain ⟨ht, hss⟩ := List.forall_mem_cons.mp h
    rw [String.join_cons]
    exact oneLine_append.mpr ⟨ht, ih hss⟩

@[simp] theorem oneLine_ite {p : Prop} [Decidable p] :
    OneLine (if p then s else t) ↔ if p then OneLine s else OneLine t := by
  split_ifs <;> rfl

end OneLine

namespace Source

/-! The strings of a syntax tree. -/

/-- The names and literals that the name of a member can be made of. -/
def Expression.words : Expression → List String
  | .name w _ | .string w _ | .number w _ => [w]
  | .member e p => e.words ++ p.toList
  | _ => []

def Key.words (k : Key) : List String := k.value.words

mutual

/-- The strings in a type that its text shows. -/
def TypeTerm.words : TypeTerm → List String
  | .keyword w | .string w | .number w | .bigint w => [w]
  | .this | .boolean _ => []
  | .template first holes => first :: holesWords holes
  | .reference path args | .query path args => path ++ typesWords args
  | .queryImport source path own args => source :: (path ++ (typesWords own ++ typesWords args))
  | .imported source path args => source :: (path ++ typesWords args)
  | .function _ ps r | .constructor _ _ ps r => parametersWords ps ++ r.words
  | .object ms => signaturesWords ms
  | .array t | .optional t | .rest t | .parenthesized t | .operator _ t => t.words
  | .tuple es => elementsWords es
  | .union ts | .intersection ts => typesWords ts
  | .conditional checked bound yes no =>
    checked.words ++ (bound.words ++ (yes.words ++ no.words))
  | .infer name bound => name :: typeWords? bound
  | .indexed t i => t.words ++ i.words
  | .mapped _ name keys renamed _ value =>
    name :: (keys.words ++ (typeWords? renamed ++ typeWords? value))
  | .predicate _ subject t => subject :: typeWords? t

def typeWords? : Option TypeTerm → List String
  | none => []
  | some t => t.words

def typesWords : List TypeTerm → List String
  | [] => []
  | t :: ts => t.words ++ typesWords ts

def holesWords : List Hole → List String
  | [] => []
  | .mk t chunk :: hs => t.words ++ chunk :: holesWords hs

def Parameter.words : Parameter → List String
  | .named n _ t | .rest n t => n :: typeWords? t
  | .restPattern _ | .arrayPattern _ | .objectPattern _ => []

def parametersWords : List Parameter → List String
  | [] => []
  | p :: ps => p.words ++ parametersWords ps

def Signature.words : Signature → List String
  | .property _ key _ t | .getter key t => key.words ++ typeWords? t
  | .method key _ _ ps r => key.words ++ (parametersWords ps ++ typeWords? r)
  | .setter key p => key.words ++ p.words
  | .call _ ps r _ | .construct _ ps r _ => parametersWords ps ++ typeWords? r
  | .index _ name keys t _ => name :: (keys.words ++ typeWords? t)

def signaturesWords : List Signature → List String
  | [] => []
  | m :: ms => m.words ++ signaturesWords ms

def TupleElement.words : TupleElement → List String
  | .plain t => t.words
  | .labelled _ label _ t => label :: t.words

def elementsWords : List TupleElement → List String
  | [] => []
  | e :: es => e.words ++ elementsWords es

end

/-! The texts of types. -/

/-- If there is a text, it has no line feed. -/
abbrev BringsLine : Except Refusal String → Prop := Brings OneLine

abbrev BringsLines : Except Refusal (List String) → Prop := Brings AllOneLine

theorem Expression.mem_words_of_path? {e : Expression} {path : List String}
    (h : e.path? = some path) {w : String} (hw : w ∈ path) : w ∈ e.words := by
  induction e generalizing path with
  | name n o =>
    cases h
    exact hw
  | member e p? ih =>
    cases p? with
    | none => cases h
    | some p =>
      obtain ⟨front, hfront, rfl⟩ := Option.map_eq_some_iff.mp h
      obtain hw | hw := List.mem_append.mp hw
      · exact List.mem_append_left _ (ih hfront hw)
      · exact List.mem_append_right _ (by simpa using hw)
  | _ => cases h

theorem Key.text_line {k : Key} (h : AllOneLine k.words) : BringsLine k.text := by
  obtain ⟨computed, e⟩ := k
  cases e with
  | name n o | number n o => exact .ok (h n List.mem_cons_self)
  | string v o => exact .ok (by simp +decide [h v List.mem_cons_self])
  | member e p =>
    simp only [text, Expression.keyText]
    split
    · next path hpath =>
      have hdotted : OneLine (dotted path) :=
        .dotted fun w hw => h w (Expression.mem_words_of_path? hpath hw)
      exact .ok (by simp +decide [hdotted])
    · exact .refused
  | _ => exact .refused

theorem oneLine_argumentsText {ss : List String} (h : AllOneLine ss) :
    OneLine (argumentsText ss) := by
  cases ss with
  | nil => exact (by decide : OneLine "")
  | cons s ss =>
    have hcommas := OneLine.commas h
    simp +decide [argumentsText, hcommas]

theorem oneLine_importedText {source : String} {path : List String} (hs : OneLine source)
    (h : AllOneLine path) : OneLine (importedText source path) := by
  have hpath : OneLine (String.join (path.map ("." ++ ·))) :=
    .join (List.forall_mem_map.mpr fun w hw => by simp +decide [h w hw])
  simp +decide [importedText, quoted, hs, hpath]

theorem oneLine_markText {s : String} (h : OneLine s) (m : Option Mark) :
    OneLine (markText s m) := by
  match m with
  | none => exact (by decide : OneLine "")
  | some .plain => exact h
  | some .plus | some .minus => simp +decide [markText, h]

theorem oneLine_word (o : TypeOperator) : OneLine o.word := by
  cases o <;> decide

theorem Brings.line_cons {x : Except Refusal String} {xs : Except Refusal (List String)}
    (hx : BringsLine x) (hxs : BringsLines xs) : BringsLines (do return (← x) :: (← xs)) :=
  hx.bind fun _ h => hxs.bind fun _ hs => .ok (List.forall_mem_cons.mpr ⟨h, hs⟩)

mutual

theorem TypeTerm.text_line (t : TypeTerm) (h : AllOneLine t.words) : BringsLine t.text := by
  cases t with
  | keyword w | number w | bigint w => exact .ok (h w List.mem_cons_self)
  | this => exact .ok (by decide)
  | string v =>
    have hv := h v List.mem_cons_self
    exact .ok (by simp +decide [quoted, hv])
  | boolean b => cases b <;> exact .ok (by decide)
  | template first holes =>
    obtain ⟨hfirst, hholes⟩ := List.forall_mem_cons.mp h
    rw [TypeTerm.text]
    exact (holesText_line holes hholes).bind fun _ hs => .ok (by simp +decide [hfirst, hs])
  | reference path args | query path args =>
    obtain ⟨hpath, hargs⟩ := List.forall_mem_append.mp h
    have hdotted := OneLine.dotted hpath
    rw [TypeTerm.text]
    exact (typeTexts_lines args hargs).bind fun _ hs =>
      .ok (by simp +decide [hdotted, oneLine_argumentsText hs])
  | queryImport source path own args =>
    obtain ⟨hsource, hrest⟩ := List.forall_mem_cons.mp h
    obtain ⟨hpath, hrest⟩ := List.forall_mem_append.mp hrest
    obtain ⟨hown, hargs⟩ := List.forall_mem_append.mp hrest
    have himported := oneLine_importedText hsource hpath
    rw [TypeTerm.text]
    exact (typeTexts_lines own hown).bind fun _ hs => (typeTexts_lines args hargs).bind fun _ hs' =>
      .ok (by simp +decide [himported, oneLine_argumentsText hs, oneLine_argumentsText hs'])
  | imported source path args =>
    obtain ⟨hsource, hrest⟩ := List.forall_mem_cons.mp h
    obtain ⟨hpath, hargs⟩ := List.forall_mem_append.mp hrest
    have himported := oneLine_importedText hsource hpath
    rw [TypeTerm.text]
    exact (typeTexts_lines args hargs).bind fun _ hs =>
      .ok (by simp +decide [himported, oneLine_argumentsText hs])
  | function gs ps r =>
    obtain ⟨hps, hr⟩ := List.forall_mem_append.mp h
    rw [TypeTerm.text]
    exact (parameterTexts_lines ps hps).bind fun _ hs => (r.text_line hr).bind fun _ hs' =>
      .ok (by simp +decide [OneLine.commas hs, hs'])
  | constructor isAbstract gs ps r =>
    obtain ⟨hps, hr⟩ := List.forall_mem_append.mp h
    rw [TypeTerm.text]
    exact (parameterTexts_lines ps hps).bind fun _ hs => (r.text_line hr).bind fun _ hs' =>
      .ok (by simp +decide [OneLine.commas hs, hs'])
  | object ms =>
    cases ms with
    | nil => exact .ok (by decide)
    | cons m ms =>
      obtain ⟨hm, hms⟩ := List.forall_mem_append.mp h
      rw [TypeTerm.text]
      exact (m.text_line hm).bind fun _ hs => (signaturesText_lines ms hms).bind fun _ hss =>
        .ok (by simp +decide [braced, OneLine.commas (List.forall_mem_cons.mpr ⟨hs, hss⟩)])
  | array t | optional t | rest t | parenthesized t =>
    rw [TypeTerm.text]
    exact (t.text_line h).bind fun _ hs => .ok (by simp +decide [hs])
  | operator o t =>
    rw [TypeTerm.text]
    exact (t.text_line h).bind fun _ hs => .ok (by simp +decide [oneLine_word, hs])
  | tuple es =>
    rw [TypeTerm.text]
    exact (elementsText_lines es h).bind fun _ hs => .ok (by simp +decide [OneLine.commas hs])
  | union ts | intersection ts =>
    rw [TypeTerm.text]
    exact (typeTexts_lines ts h).bind fun _ hs => .ok (.intercalate (by decide) hs)
  | conditional checked bound yes no =>
    obtain ⟨hchecked, hrest⟩ := List.forall_mem_append.mp h
    obtain ⟨hbound, hrest⟩ := List.forall_mem_append.mp hrest
    obtain ⟨hyes, hno⟩ := List.forall_mem_append.mp hrest
    rw [TypeTerm.text]
    exact (checked.text_line hchecked).bind fun _ c => (bound.text_line hbound).bind fun _ b =>
      (yes.text_line hyes).bind fun _ y => (no.text_line hno).bind fun _ n =>
        .ok (by simp +decide [c, b, y, n])
  | infer name bound =>
    obtain ⟨hname, hbound⟩ := List.forall_mem_cons.mp h
    rw [TypeTerm.text]
    exact (behindText_line (by decide) bound hbound).bind fun _ hs =>
      .ok (by simp +decide [hname, hs])
  | indexed t i =>
    obtain ⟨ht, hi⟩ := List.forall_mem_append.mp h
    rw [TypeTerm.text]
    exact (t.text_line ht).bind fun _ hs => (i.text_line hi).bind fun _ hs' =>
      .ok (by simp +decide [hs, hs'])
  | mapped readonly name keys renamed isOptional value =>
    obtain ⟨hname, hrest⟩ := List.forall_mem_cons.mp h
    obtain ⟨hkeys, hrest⟩ := List.forall_mem_append.mp hrest
    obtain ⟨hrenamed, hvalue⟩ := List.forall_mem_append.mp hrest
    have hreadonly : OneLine (markText "readonly " readonly) := oneLine_markText (by decide) _
    have hoptional : OneLine (markText "?" isOptional) := oneLine_markText (by decide) _
    rw [TypeTerm.text]
    exact (keys.text_line hkeys).bind fun _ k =>
      (behindText_line (by decide) renamed hrenamed).bind fun _ n =>
        (behindText_line (by decide) value hvalue).bind fun _ v =>
          .ok (by simp +decide [braced, hreadonly, hoptional, hname, k, n, v])
  | predicate asserts subject t =>
    obtain ⟨hsubject, ht⟩ := List.forall_mem_cons.mp h
    rw [TypeTerm.text]
    exact (behindText_line (by decide) t ht).bind fun _ hs =>
      .ok (by simp +decide [hsubject, hs])

theorem behindText_line {word : String} (hw : OneLine word) (t : Option TypeTerm)
    (h : AllOneLine (typeWords? t)) : BringsLine (behindText word t) := by
  cases t with
  | none => exact .ok (by decide)
  | some t =>
    rw [behindText]
    exact (t.text_line h).bind fun _ hs => .ok (oneLine_append.mpr ⟨hw, hs⟩)

theorem annotationText_line (t : Option TypeTerm) (h : AllOneLine (typeWords? t)) :
    BringsLine (annotationText t) := by
  cases t with
  | none => exact .ok (by decide)
  | some t =>
    rw [annotationText]
    exact t.text_line h

theorem typeTexts_lines (ts : List TypeTerm) (h : AllOneLine (typesWords ts)) :
    BringsLines (typeTexts ts) := by
  cases ts with
  | nil => exact .ok nofun
  | cons t ts =>
    obtain ⟨ht, hts⟩ := List.forall_mem_append.mp h
    rw [typeTexts]
    exact (t.text_line ht).line_cons (typeTexts_lines ts hts)

theorem holesText_line (holes : List Hole) (h : AllOneLine (holesWords holes)) :
    BringsLine (holesText holes) := by
  match holes, h with
  | [], _ => exact .ok (by decide)
  | .mk t chunk :: holes, h =>
    obtain ⟨ht, hrest⟩ := List.forall_mem_append.mp h
    obtain ⟨hchunk, hholes⟩ := List.forall_mem_cons.mp hrest
    rw [holesText]
    exact (t.text_line ht).bind fun _ hs => (holesText_line holes hholes).bind fun _ hs' =>
      .ok (by simp +decide [braced, hs, hchunk, hs'])

theorem Parameter.parts_line (p : Parameter) (h : AllOneLine p.words) :
    Brings (fun parts => OneLine parts.1 ∧ OneLine parts.2) p.parts := by
  cases p with
  | named n isOptional t =>
    obtain ⟨hn, ht⟩ := List.forall_mem_cons.mp h
    rw [Parameter.parts]
    exact (annotationText_line t ht).bind fun _ hs => .ok ⟨hn, hs⟩
  | rest n t =>
    obtain ⟨hn, ht⟩ := List.forall_mem_cons.mp h
    rw [Parameter.parts]
    exact (annotationText_line t ht).bind fun _ hs => .ok ⟨by simp +decide [hn], hs⟩
  | _ =>
    rw [Parameter.parts]
    exact .refused

theorem parameterTexts_lines (ps : List Parameter) (h : AllOneLine (parametersWords ps)) :
    BringsLines (parameterTexts ps) := by
  cases ps with
  | nil => exact .ok nofun
  | cons p ps =>
    obtain ⟨hp, hps⟩ := List.forall_mem_append.mp h
    rw [parameterTexts]
    exact (p.parts_line hp).bind fun _ hs => (parameterTexts_lines ps hps).bind fun _ hss =>
      .ok (List.forall_mem_cons.mpr ⟨by simp +decide [parameterText, hs], hss⟩)

theorem Signature.text_line (m : Signature) (h : AllOneLine m.words) : BringsLine m.text := by
  cases m with
  | property readonly key isOptional t =>
    obtain ⟨hkey, ht⟩ := List.forall_mem_append.mp h
    rw [Signature.text]
    exact (key.text_line hkey).bind fun _ k => (annotationText_line t ht).bind fun _ hs =>
      .ok (by simp +decide [k, hs])
  | method key isOptional gs ps r =>
    obtain ⟨hkey, hrest⟩ := List.forall_mem_append.mp h
    obtain ⟨hps, hr⟩ := List.forall_mem_append.mp hrest
    rw [Signature.text]
    exact (key.text_line hkey).bind fun _ k => (parameterTexts_lines ps hps).bind fun _ hss =>
      (annotationText_line r hr).bind fun _ hs =>
        .ok (by simp +decide [k, OneLine.commas hss, hs])
  | getter key t =>
    obtain ⟨hkey, ht⟩ := List.forall_mem_append.mp h
    rw [Signature.text]
    exact (key.text_line hkey).bind fun _ k => (annotationText_line t ht).bind fun _ hs =>
      .ok (by simp +decide [k, hs])
  | setter key p =>
    obtain ⟨hkey, hp⟩ := List.forall_mem_append.mp h
    rw [Signature.text]
    exact (p.parts_line hp).bind fun _ hs => (key.text_line hkey).bind fun _ k =>
      .ok (by simp +decide [parameterText, k, hs])
  | call gs ps r o | construct gs ps r o =>
    obtain ⟨hps, hr⟩ := List.forall_mem_append.mp h
    rw [Signature.text]
    exact (parameterTexts_lines ps hps).bind fun _ hss =>
      (annotationText_line r hr).bind fun _ hs => .ok (by simp +decide [OneLine.commas hss, hs])
  | index readonly name keys t o =>
    obtain ⟨hname, hrest⟩ := List.forall_mem_cons.mp h
    obtain ⟨hkeys, ht⟩ := List.forall_mem_append.mp hrest
    rw [Signature.text]
    exact (keys.text_line hkeys).bind fun _ k => (annotationText_line t ht).bind fun _ hs =>
      .ok (by simp +decide [parameterText, hname, k, hs])

theorem signaturesText_lines (ms : List Signature) (h : AllOneLine (signaturesWords ms)) :
    BringsLines (signaturesText ms) := by
  cases ms with
  | nil => exact .ok nofun
  | cons m ms =>
    obtain ⟨hm, hms⟩ := List.forall_mem_append.mp h
    rw [signaturesText]
    exact (m.text_line hm).line_cons (signaturesText_lines ms hms)

theorem TupleElement.text_line (e : TupleElement) (h : AllOneLine e.words) :
    BringsLine e.text := by
  cases e with
  | plain t =>
    rw [TupleElement.text]
    exact t.text_line h
  | labelled takesRest label isOptional t =>
    obtain ⟨hlabel, ht⟩ := List.forall_mem_cons.mp h
    rw [TupleElement.text]
    exact (t.text_line ht).bind fun _ hs =>
      .ok (by simp +decide [parameterText, hlabel, hs])

theorem elementsText_lines (es : List TupleElement) (h : AllOneLine (elementsWords es)) :
    BringsLines (elementsText es) := by
  cases es with
  | nil => exact .ok nofun
  | cons e es =>
    obtain ⟨he, hes⟩ := List.forall_mem_append.mp h
    rw [elementsText]
    exact (e.text_line he).line_cons (elementsText_lines es hes)

end

/-! Members and items. -/

def ClassMember.words : ClassMember → List String
  | .constructor key ps => key.words ++ ps.flatMap Parameter.words
  | .method key ps r => key.words ++ (ps.flatMap Parameter.words ++ typeWords? r)
  | .field key t _ => key.words ++ typeWords? t
  | _ => []

def Variable.words : Variable → List String
  | .named n t _ => n :: typeWords? t
  | .pattern _ => []

/-- The strings in an item that can be part of what it declares. -/
def Item.words : Item → List String
  | .enumeration n vs => n :: vs
  | .classType n s ms =>
    n.toList ++ (s.toList.flatMap Expression.words ++ ms.flatMap ClassMember.words)
  | .interface n bs ms => n :: (bs.flatMap Expression.words ++ ms.flatMap Signature.words)
  | .function n ps => n.toList ++ ps.flatMap Parameter.words
  | .typeAlias n t => n :: t.words
  | .variableList vs => vs.flatMap Variable.words
  | _ => []

theorem parametersWords_eq (ps : List Parameter) :
    parametersWords ps = ps.flatMap Parameter.words := by
  induction ps with
  | nil => rfl
  | cons p ps ih => rw [parametersWords, ih, List.flatMap_cons]

end Source

/-- The strings in a text that can be part of its structure. -/
def wordsOf (source : String) : List String :=
  match itemsOf (withoutMark source.toList) with
  | .ok items => items.flatMap (·.words)
  | .error _ => []

/-! Structures. -/

namespace Declaration

mutual

/-- All names, values and types in a declaration. -/
def texts : Declaration → List String
  | enumeration n vs => n :: vs
  | classType n ms s => n :: (s.toList ++ listTexts ms)
  | interface n ms bs => n :: (bs ++ listTexts ms)
  | method n ps r => n :: (r.toList ++ listTexts ps)
  | property n t | parameter n t | typeAlias n t => [n, t]

def listTexts : List Declaration → List String
  | [] => []
  | d :: ds => d.texts ++ listTexts ds

end

theorem allOneLine_listTexts {ds : List Declaration} :
    AllOneLine (listTexts ds) ↔ ∀ d ∈ ds, AllOneLine d.texts := by
  induction ds with
  | nil => exact ⟨fun _ => nofun, fun _ => nofun⟩
  | cons d ds ih =>
    rw [List.forall_mem_cons, ← ih]
    exact List.forall_mem_append

end Declaration

namespace Source
open Declaration

theorem forall_mem_flatMap {α : Type} {f : α → List String} {as : List α} :
    AllOneLine (as.flatMap f) ↔ ∀ a ∈ as, AllOneLine (f a) := by
  simp only [AllOneLine, List.mem_flatMap]
  exact ⟨fun h a ha w hw => h w ⟨a, ha, hw⟩, fun h w ⟨a, ha, hw⟩ => h a ha w hw⟩

/-- Whatever declares things whose texts have no line feed declares a list of such things. -/
theorem allOneLine_of_forall₂ {α : Type} {Declares : α → Declaration → Prop}
    (words : α → List String) (hd : ∀ {a d}, Declares a d → AllOneLine (words a) →
      AllOneLine d.texts) {as : List α} {ds : List Declaration} (h : List.Forall₂ Declares as ds)
    (has : ∀ a ∈ as, AllOneLine (words a)) : AllOneLine (listTexts ds) := by
  refine allOneLine_listTexts.mpr fun d hmem => ?_
  obtain ⟨a, ha, hdeclares⟩ := exists_of_forall₂ h hmem
  exact hd hdeclares (has a ha)

theorem propertyType_line {t : Option TypeTerm} (h : AllOneLine (typeWords? t))
    (e : Option Expression) : BringsLine (propertyType t e) := by
  match t, e with
  | some t, _ => exact t.text_line h
  | none, none => exact .ok (by decide)
  | none, some e =>
    show BringsLine e.literalType
    induction e with
    | string | number | boolean => exact .ok (by decide)
    | unary e o ih => exact ih
    | _ => exact .refused

theorem Key.memberText_line {k : Key} (h : AllOneLine k.words) : BringsLine k.memberText := by
  unfold memberText
  split
  · exact .refused
  · exact k.text_line h

theorem Parameter.Declares.oneLine {p : Parameter} {d : Declaration} (hd : p.Declares d)
    (h : AllOneLine p.words) : AllOneLine d.texts := by
  cases hd with
  | named hs =>
    obtain ⟨hn, ht⟩ := List.forall_mem_cons.mp h
    exact List.forall_mem_cons.mpr ⟨hn, List.forall_mem_singleton.mpr (annotationText_line _ ht hs)⟩
  | @rest n _ _ hs =>
    obtain ⟨hn, ht⟩ := List.forall_mem_cons.mp h
    have hname : OneLine ("..." ++ n) := by simp +decide [hn]
    exact List.forall_mem_cons.mpr
      ⟨hname, List.forall_mem_singleton.mpr (annotationText_line _ ht hs)⟩

/-- A method with a result. -/
theorem allOneLine_method {n r : String} {ds : List Declaration} (hn : OneLine n)
    (hr : OneLine r) (hds : AllOneLine (listTexts ds)) :
    AllOneLine (method n ds (some r)).texts :=
  List.forall_mem_cons.mpr ⟨hn, List.forall_mem_cons.mpr ⟨hr, hds⟩⟩

theorem Parameter.allOneLine_declared {ps : List Parameter} {ds : List Declaration}
    (hds : List.Forall₂ Parameter.Declares ps ds) (h : AllOneLine (ps.flatMap Parameter.words)) :
    AllOneLine (listTexts ds) :=
  allOneLine_of_forall₂ Parameter.words Parameter.Declares.oneLine hds (forall_mem_flatMap.mp h)

theorem Signature.Declares.oneLine {m : Signature} {d : Declaration} (hd : m.Declares d)
    (h : AllOneLine m.words) : AllOneLine d.texts := by
  cases hd with
  | property hn hs =>
    obtain ⟨hkey, ht⟩ := List.forall_mem_append.mp h
    exact List.forall_mem_cons.mpr ⟨Key.text_line hkey hn,
      List.forall_mem_singleton.mpr (annotationText_line _ ht hs)⟩
  | method hn hps hs =>
    obtain ⟨hkey, hrest⟩ := List.forall_mem_append.mp h
    obtain ⟨hparameters, hr⟩ := List.forall_mem_append.mp hrest
    rw [parametersWords_eq] at hparameters
    exact allOneLine_method (Key.text_line hkey hn) (annotationText_line _ hr hs)
      (Parameter.allOneLine_declared hps hparameters)
  | getter hn hs =>
    obtain ⟨hkey, ht⟩ := List.forall_mem_append.mp h
    exact allOneLine_method (Key.text_line hkey hn) (annotationText_line _ ht hs) nofun
  | setter hn hp =>
    obtain ⟨hkey, hparameter⟩ := List.forall_mem_append.mp h
    refine allOneLine_method (Key.text_line hkey hn) (by decide) ?_
    exact List.forall_mem_append.mpr ⟨hp.oneLine hparameter, nofun⟩

theorem ClassMember.Declares.oneLine {m : ClassMember} {d : Declaration} (hd : m.Declares d)
    (h : AllOneLine m.words) : AllOneLine d.texts := by
  cases hd with
  | constructor hn hps =>
    obtain ⟨hkey, hparameters⟩ := List.forall_mem_append.mp h
    exact allOneLine_method (Key.memberText_line hkey hn) (by decide)
      (Parameter.allOneLine_declared hps hparameters)
  | method hn hps hs =>
    obtain ⟨hkey, hrest⟩ := List.forall_mem_append.mp h
    obtain ⟨hparameters, hr⟩ := List.forall_mem_append.mp hrest
    exact allOneLine_method (Key.memberText_line hkey hn) (annotationText_line _ hr hs)
      (Parameter.allOneLine_declared hps hparameters)
  | field hn hs =>
    obtain ⟨hkey, ht⟩ := List.forall_mem_append.mp h
    exact List.forall_mem_cons.mpr ⟨Key.memberText_line hkey hn,
      List.forall_mem_singleton.mpr (propertyType_line ht _ hs)⟩

theorem Variable.Declares.oneLine {v : Variable} {d : Declaration} (hd : v.Declares d)
    (h : AllOneLine v.words) : AllOneLine d.texts := by
  obtain ⟨hs⟩ := hd
  obtain ⟨hn, ht⟩ := List.forall_mem_cons.mp h
  exact List.forall_mem_cons.mpr
    ⟨hn, List.forall_mem_singleton.mpr (propertyType_line ht _ hs)⟩

theorem oneLine_defaultName {n : Option String} (h : AllOneLine n.toList) :
    OneLine (defaultName n) := by
  cases n with
  | none => decide
  | some n => exact h n List.mem_cons_self

theorem baseText_line {e : Expression} (h : AllOneLine e.words) (otherwise : Construct) :
    BringsLine (baseText otherwise e) := by
  unfold baseText
  split
  · next path hpath =>
    exact .ok (.dotted fun w hw => h w (Expression.mem_words_of_path? hpath hw))
  · exact .refused

theorem Item.Declares.oneLine {i : Item} {ds : List Declaration} (hd : i.Declares ds)
    (h : AllOneLine i.words) : AllOneLine (listTexts ds) := by
  have hsingle {d : Declaration} (hd : AllOneLine d.texts) : AllOneLine (listTexts [d]) :=
    allOneLine_listTexts.mpr (List.forall_mem_singleton.mpr hd)
  cases hd with
  | enumeration => exact hsingle h
  | classType hms =>
    obtain ⟨hn, hmembers⟩ := List.forall_mem_append.mp h
    have hds := allOneLine_of_forall₂ ClassMember.words ClassMember.Declares.oneLine hms
      fun m hm => forall_mem_flatMap.mp hmembers m (List.mem_of_mem_filter hm)
    exact hsingle (List.forall_mem_cons.mpr ⟨oneLine_defaultName hn, hds⟩)
  | derivedClass hb hms =>
    obtain ⟨hn, hrest⟩ := List.forall_mem_append.mp h
    obtain ⟨hbase, hmembers⟩ := List.forall_mem_append.mp hrest
    have hds := allOneLine_of_forall₂ ClassMember.words ClassMember.Declares.oneLine hms
      fun m hm => forall_mem_flatMap.mp hmembers m (List.mem_of_mem_filter hm)
    have hsuperclass := baseText_line (forall_mem_flatMap.mp hbase _ List.mem_cons_self) _ hb
    exact hsingle (List.forall_mem_cons.mpr
      ⟨oneLine_defaultName hn, List.forall_mem_cons.mpr ⟨hsuperclass, hds⟩⟩)
  | interface hbs hms =>
    obtain ⟨hn, hrest⟩ := List.forall_mem_cons.mp h
    obtain ⟨hbases, hmembers⟩ := List.forall_mem_append.mp hrest
    have hds := allOneLine_of_forall₂ Signature.words Signature.Declares.oneLine hms
      (forall_mem_flatMap.mp hmembers)
    have hnames : AllOneLine _ := fun name hname => by
      obtain ⟨b, hb, htext⟩ := exists_of_forall₂ hbs hname
      exact baseText_line (forall_mem_flatMap.mp hbases b hb) _ htext
    exact hsingle (List.forall_mem_cons.mpr ⟨hn, List.forall_mem_append.mpr ⟨hnames, hds⟩⟩)
  | @function n ps ds hps =>
    obtain ⟨hn, hparameters⟩ := List.forall_mem_append.mp h
    exact hsingle (List.forall_mem_cons.mpr ⟨oneLine_defaultName hn,
      Parameter.allOneLine_declared hps hparameters⟩)
  | typeAlias hs =>
    obtain ⟨hn, ht⟩ := List.forall_mem_cons.mp h
    exact hsingle (List.forall_mem_cons.mpr
      ⟨hn, List.forall_mem_singleton.mpr (TypeTerm.text_line _ ht hs)⟩)
  | variableList hvs =>
    exact allOneLine_of_forall₂ Variable.words Variable.Declares.oneLine hvs
      (forall_mem_flatMap.mp h)

end Source

/-- No text of a structure has a line feed if no string in its source has one. -/
theorem allOneLine_of_extract {source : String} {s : Structure} (h : extract source = .ok s)
    (hwords : AllOneLine (wordsOf source)) : ∀ d ∈ s, AllOneLine d.texts := by
  intro d hd
  obtain ⟨items, hitems, i, hi, ds, hds, hmem⟩ := exists_item_of_extract h hd
  rw [wordsOf, hitems] at hwords
  exact Declaration.allOneLine_listTexts.mp
    (hds.oneLine (Source.forall_mem_flatMap.mp hwords i hi)) d hmem

end ApiSurface
