import ApiSurface.Proofs.BalancedPieces

/-! Types whose text can be taken in one way only. A text has no line breaks and few brackets of its
own, so that two constructs may be taken for others: a result whose first words look like a test of
a parameter, and a bound of an inferred type that ends in an inferred type without one. -/
namespace ApiSurface.Source

/-- The words of a test of a parameter stand in front. -/
def looksTested : List Lexeme → Bool
  | .word a :: .word b :: _ => a = "asserts" && isReference b || isReference a && b = "is"
  | [.word a] => a = "asserts"
  | _ => false

/-- An inferred type without a bound stands at the end. -/
def endsInfer (ls : List Lexeme) : Bool :=
  match ls.reverse with
  | .word _ :: .word "infer" :: _ => true
  | _ => false

/-- A test of a parameter. -/
def TypeTerm.tests : TypeTerm → Bool
  | .predicate _ subject _ => subject != "this"
  | _ => false

/-- A result looks like a test only if it is one. -/
def TypeTerm.clear (t : TypeTerm) : Bool := t.tests || !looksTested (lexemes t.pieces)

/-- A key that has a name. -/
def Key.named (k : Key) : Bool :=
  match k.value with
  | .string _ _ | .number _ _ => true
  | e => e.path?.isSome

mutual

/-- No part of the text of a type can be taken for something else. A type whose keys have no names,
or with patterns for parameters, has no text at all. -/
def TypeTerm.legible : TypeTerm → Bool
  | .keyword _ | .this | .string _ | .number _ | .bigint _ | .boolean _ => true
  | .template _ hs => holesLegible hs
  | .reference _ args => typesLegible args
  | .query _ args => typesLegible args
  | .queryImport _ _ own args => typesLegible own && typesLegible args
  | .imported _ _ args => typesLegible args
  | .function _ ps r => parametersLegible ps && r.legible && r.clear
  | .constructor _ _ ps r => parametersLegible ps && r.legible && r.clear
  | .object ms => signaturesLegible ms
  | .array t => t.legible
  | .tuple es => elementsLegible es
  | .optional t => t.legible
  | .rest t => t.legible
  | .union ts => typesLegible ts
  | .intersection ts => typesLegible ts
  | .conditional checked bound yes no =>
    checked.legible && bound.legible && yes.legible && no.legible
  | .infer _ none => true
  | .infer _ (some b) => b.legible && !endsInfer (lexemes b.pieces)
  | .parenthesized t => t.legible
  | .operator _ t => t.legible
  | .indexed t i => t.legible && i.legible
  | .mapped _ _ keys renamed _ value =>
    keys.legible && optionLegible renamed && optionLegible value
  | .predicate _ _ t => optionLegible t

def optionLegible : Option TypeTerm → Bool
  | none => true
  | some t => t.legible

def resultLegible : Option TypeTerm → Bool
  | none => true
  | some t => t.legible && t.clear

def typesLegible : List TypeTerm → Bool
  | [] => true
  | t :: ts => t.legible && typesLegible ts

def holesLegible : List Hole → Bool
  | [] => true
  | .mk t _ :: hs => t.legible && holesLegible hs

def Parameter.legible : Parameter → Bool
  | .named _ _ t => optionLegible t
  | .rest _ t => optionLegible t
  | _ => false

def parametersLegible : List Parameter → Bool
  | [] => true
  | p :: ps => p.legible && parametersLegible ps

def Signature.legible : Signature → Bool
  | .property _ key _ t => key.named && optionLegible t
  | .method key _ _ ps r => key.named && parametersLegible ps && resultLegible r
  | .getter key t => key.named && optionLegible t
  | .setter key p => key.named && p.legible
  | .call _ ps r _ => parametersLegible ps && resultLegible r
  | .construct _ ps r _ => parametersLegible ps && resultLegible r
  | .index _ _ keys t _ => keys.legible && optionLegible t

def signaturesLegible : List Signature → Bool
  | [] => true
  | m :: ms => m.legible && signaturesLegible ms

def TupleElement.legible : TupleElement → Bool
  | .plain t => t.legible
  | .labelled _ _ _ t => t.legible

def elementsLegible : List TupleElement → Bool
  | [] => true
  | e :: es => e.legible && elementsLegible es

end

theorem typesLegible_iff {ts : List TypeTerm} : typesLegible ts ↔ ∀ t ∈ ts, t.legible := by
  induction ts with
  | nil => simp [typesLegible]
  | cons t ts ih => simp [typesLegible, ih]

theorem parametersLegible_iff {ps : List Parameter} :
    parametersLegible ps ↔ ∀ p ∈ ps, p.legible := by
  induction ps with
  | nil => simp [parametersLegible]
  | cons p ps ih => simp [parametersLegible, ih]

theorem signaturesLegible_iff {ms : List Signature} :
    signaturesLegible ms ↔ ∀ m ∈ ms, m.legible := by
  induction ms with
  | nil => simp [signaturesLegible]
  | cons m ms ih => simp [signaturesLegible, ih]

theorem elementsLegible_iff {es : List TupleElement} :
    elementsLegible es ↔ ∀ e ∈ es, e.legible := by
  induction es with
  | nil => simp [elementsLegible]
  | cons e es ih => simp [elementsLegible, ih]

/-! The first tokens of a type. -/

/-- What stands behind the name of a parameter or behind a label. -/
def afterName : List String := [":", "?", ",", "=", ")"]

/-- What stands behind a first word does not make it a name, not even if the word is a modifier. -/
def leavesType : List Lexeme → Bool
  | .symbol s :: _ => !afterName.contains s
  | .word _ :: .symbol s :: _ => !afterName.contains s
  | _ => true

/-- A type stands here, as far as the first tokens tell. -/
def opensType : List Lexeme → Bool
  | .word _ :: ls => leavesType ls
  | .symbol s :: _ => ["(", "[", "\x7b", "-"].contains s
  | .template _ opens _ _ :: _ => opens
  | .string _ :: _ | .number _ :: _ | .bigint _ :: _ => true
  | _ => false

/-- Brackets end here, and nothing behind them makes them the pattern of a parameter. -/
def EndsGroup (ls : List Lexeme) : Prop :=
  ∃ inner c outer, ls = inner ++ .symbol c :: outer ∧ c ∈ ["]", "\x7d"] ∧ Balanced inner ∧
    ∀ s ls', outer = .symbol s :: ls' → s ∉ afterName

/-- Brackets that stand in front are no pattern, not even behind a word that may be a modifier. -/
structure Grouped (ls : List Lexeme) : Prop where
  first : ∀ s ls', ls = .symbol s :: ls' → s ∈ ["[", "\x7b"] → EndsGroup ls'
  second : ∀ w s ls', ls = .word w :: .symbol s :: ls' → s ∈ ["[", "\x7b"] → EndsGroup ls'

/-- An operand of a union stands here: no constructor, and no parameters in brackets. -/
structure OpensOperand (ls : List Lexeme) : Prop where
  opens : opensType ls
  grouped : Grouped ls
  not_new : ∀ ls', ls ≠ .word "new" :: ls'
  not_abstract : ∀ ls', ls ≠ .word "abstract" :: .word "new" :: ls'
  brackets : ∀ ls', ls = .symbol "(" :: ls' → ∃ inner outer, ls' = inner ++ .symbol ")" :: outer ∧
    opensType inner ∧ Grouped inner ∧ ∀ ls'', outer ≠ .symbol "=>" :: ls''

section

variable {ls ls' : List Lexeme} {s w : String}

theorem exists_cons_of_opensType (h : opensType ls) : ∃ l ls', ls = l :: ls' := by
  cases ls with
  | nil => cases h
  | cons l ls => exact ⟨l, ls, rfl⟩

theorem ne_symbol_of_opensType (h : opensType ls) (hs : s ∉ ["(", "[", "\x7b", "-"]) :
    ∃ l ls', ls = l :: ls' ∧ l ≠ .symbol s := by
  obtain ⟨l, ls, rfl⟩ := exists_cons_of_opensType h
  refine ⟨l, ls, rfl, ?_⟩
  rintro rfl
  exact hs (by simpa [opensType] using h)

theorem opensType_append_symbol (h : opensType ls) (hs : s ∉ afterName) :
    opensType (ls ++ .symbol s :: ls') := by
  obtain _ | ⟨l, ls⟩ := ls
  · cases h
  cases l with
  | word w =>
    obtain _ | ⟨l, ls⟩ := ls
    · simpa [opensType, leavesType] using hs
    cases l with
    | word w' =>
      obtain _ | ⟨l, ls⟩ := ls
      · simpa [opensType, leavesType] using hs
      · cases l <;> exact h
    | _ => exact h
  | _ => exact h

/-- No symbol that a type opens with makes a name of a word in front of it. -/
theorem head_of_opensType (h : opensType ls) {ls'' : List Lexeme}
    (e : ls ++ ls' = .symbol s :: ls'') : s ∉ afterName := by
  obtain ⟨l, ls, rfl⟩ := exists_cons_of_opensType h
  cases e
  simp only [opensType, List.contains_iff_mem, List.mem_cons, List.not_mem_nil, or_false] at h
  rcases h with rfl | rfl | rfl | rfl <;> simp [afterName]

theorem opensType_append_word (h : opensType ls)
    (h' : ∀ {s ls''}, ls' = .symbol s :: ls'' → s ∉ afterName) :
    opensType (ls ++ .word w :: ls') := by
  obtain _ | ⟨l, ls⟩ := ls
  · cases h
  cases l with
  | word w =>
    obtain _ | ⟨l, ls⟩ := ls
    · obtain _ | ⟨l', ls'⟩ := ls'
      · rfl
      cases l' with
      | symbol s => simpa [opensType, leavesType] using h' rfl
      | _ => rfl
    cases l with
    | word w' =>
      obtain _ | ⟨l, ls⟩ := ls
      · rfl
      · cases l <;> exact h
    | _ => exact h
  | _ => exact h

theorem EndsGroup.append (h : EndsGroup ls)
    (hs : ∀ s ls'', ls' = .symbol s :: ls'' → s ∉ afterName) : EndsGroup (ls ++ ls') := by
  obtain ⟨inner, c, outer, rfl, hc, hi, ho⟩ := h
  refine ⟨inner, c, outer ++ ls', by simp, hc, hi, fun s ls'' e => ?_⟩
  cases outer with
  | nil => exact hs s ls'' e
  | cons l outer =>
    cases e
    exact ho s outer rfl

/-- Brackets and what they enclose, with nothing behind them. -/
theorem endsGroup_of_balanced {c : String} (h : Balanced ls) (hc : c ∈ ["]", "\x7d"]) :
    EndsGroup (ls ++ [.symbol c]) := ⟨ls, c, [], rfl, hc, h, nofun⟩

namespace Grouped

/-- A lexeme that is neither a word nor a bracket of some sorts. -/
theorem of_head {l : Lexeme} (hw : ∀ w, l ≠ .word w) (hs : ∀ s ∈ ["[", "\x7b"], l ≠ .symbol s) :
    Grouped (l :: ls) := by
  refine ⟨fun s ls' e h => ?_, fun w s ls' e => ?_⟩
  · cases e
    exact absurd rfl (hs s h)
  · cases e
    exact absurd rfl (hw w)

theorem of_bracket {s : String} (h : EndsGroup ls) : Grouped (.symbol s :: ls) := by
  refine ⟨fun s ls' e _ => ?_, nofun⟩
  cases e
  exact h

theorem of_word (h : ∀ s ls', ls = .symbol s :: ls' → s ∈ ["[", "\x7b"] → EndsGroup ls') :
    Grouped (.word w :: ls) := by
  refine ⟨nofun, fun w s ls' e => ?_⟩
  cases e
  exact h s ls' rfl

/-- What stands behind a type makes no pattern of its brackets, and has none of its own. -/
theorem append (h : Grouped ls) (hne : ls ≠ [])
    (hs : ∀ s ls'', ls' = .symbol s :: ls'' → s ∉ afterName)
    (hb : ∀ s ls'', ls' = .symbol s :: ls'' → s ∈ ["[", "\x7b"] → EndsGroup ls'') :
    Grouped (ls ++ ls') := by
  obtain ⟨l, ls, rfl⟩ := List.exists_cons_of_ne_nil hne
  refine ⟨fun s ls'' e hmem => ?_, fun w s ls'' e hmem => ?_⟩
  · cases e
    exact (h.first s ls rfl hmem).append hs
  · rw [List.cons_append, List.cons.injEq] at e
    obtain ⟨rfl, e⟩ := e
    cases ls with
    | nil => exact hb s ls'' e hmem
    | cons l ls =>
      cases e
      exact (h.second w s ls rfl hmem).append hs

end Grouped

theorem opensOperand_of_word (h : opensType (.word w :: ls)) (hg : Grouped (.word w :: ls))
    (hw : w ≠ "new") (hls : w = "abstract" → ∀ ls', ls ≠ .word "new" :: ls') :
    OpensOperand (.word w :: ls) := by
  refine ⟨h, hg, fun ls' e => ?_, fun ls' e => ?_, nofun⟩
  · cases e
    exact hw rfl
  · cases e
    exact hls rfl _ rfl

theorem OpensOperand.append_symbol (h : OpensOperand ls) (hs : s ∉ "=>" :: afterName)
    (hb : s ∈ ["[", "\x7b"] → EndsGroup ls') : OpensOperand (ls ++ .symbol s :: ls') := by
  obtain ⟨hne, hs⟩ := not_or.1 (mt List.mem_cons.2 hs)
  have hcons := exists_cons_of_opensType h.opens
  refine ⟨opensType_append_symbol h.opens hs, h.grouped.append ?_ ?_ ?_, ?_, ?_, ?_⟩
  · obtain ⟨l, ls, rfl⟩ := hcons
    simp
  · rintro _ _ ⟨⟩
    exact hs
  · rintro _ _ ⟨⟩
    exact hb
  · obtain ⟨l, ls, rfl⟩ := hcons
    rintro ls'' e
    exact h.not_new ls (by simp_all)
  · obtain ⟨l, ls, rfl⟩ := hcons
    rintro ls'' e
    obtain _ | ⟨l', ls⟩ := ls
    · simp at e
    · exact h.not_abstract ls (by simp_all)
  · rintro ls'' e
    obtain ⟨l, ls, rfl⟩ := hcons
    rw [List.cons_append, List.cons.injEq] at e
    obtain ⟨rfl, rfl⟩ := e
    obtain ⟨inner, outer, rfl, hi, hp, ho⟩ := h.brackets ls rfl
    refine ⟨inner, outer ++ .symbol s :: ls', by simp, hi, hp, ?_⟩
    cases outer with
    | nil => simpa using fun e => absurd e hne
    | cons l outer => simpa using ho

theorem endsInfer_append (h : endsInfer (ls ++ ls') = false) : endsInfer ls' = false := by
  unfold endsInfer at *
  rw [List.reverse_append] at h
  generalize ls'.reverse = r' at *
  split
  · simp at h
  · rfl

end

end ApiSurface.Source
