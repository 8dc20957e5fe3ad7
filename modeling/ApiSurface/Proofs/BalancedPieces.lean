import ApiSurface.Proofs.Frames
import ApiSurface.Proofs.TypePieces

/-! Brackets in the pieces of a type. Whatever a tree is, its pieces close all brackets they open,
and none else. -/
namespace ApiSurface.Source
open Piece

/-- What is open behind lexemes, given what is open before them. -/
def nests (s : List Bracket) : List Lexeme → Option (List Bracket)
  | [] => some s
  | l :: ls => (l.shift s).bind (nests · ls)

@[simp] theorem nests_nil (s : List Bracket) : nests s [] = some s := rfl

theorem nests_append (s : List Bracket) (ls ls' : List Lexeme) :
    nests s (ls ++ ls') = (nests s ls).bind (nests · ls') := by
  induction ls generalizing s with
  | nil => rfl
  | cons l ls ih =>
    show (l.shift s).bind (nests · (ls ++ ls')) = _
    rw [nests, Option.bind_assoc]
    exact congrArg _ (funext fun s' => ih s')

theorem brackets_eq_nests (s : List Bracket) (ts : List Token) :
    brackets s ts = nests s (ts.map Token.lexeme) := by
  induction ts generalizing s with
  | nil => rfl
  | cons t ts ih => exact congrArg _ (funext fun s' => ih s')

/-- All brackets match. -/
def Balanced (ls : List Lexeme) : Prop := ∀ s, nests s ls = some s

section Shift

variable (s : List Bracket)

@[simp] theorem shift_symbol {x : String} (h : (Lexeme.symbol x).isPlain) :
    (Lexeme.symbol x).shift s = some s := Lexeme.shift_of_isPlain h s

@[simp] theorem shift_word (w : String) : (Lexeme.word w).shift s = some s := rfl
@[simp] theorem shift_string (v : String) : (Lexeme.string v).shift s = some s := rfl
@[simp] theorem shift_number (n : String) : (Lexeme.number n).shift s = some s := rfl
@[simp] theorem shift_bigint (n : String) : (Lexeme.bigint n).shift s = some s := rfl

@[simp] theorem shift_openRound : (Lexeme.symbol "(").shift s = some (.round :: s) := rfl
@[simp] theorem shift_closeRound : (Lexeme.symbol ")").shift (.round :: s) = some s := rfl
@[simp] theorem shift_openSquare : (Lexeme.symbol "[").shift s = some (.square :: s) := rfl
@[simp] theorem shift_closeSquare : (Lexeme.symbol "]").shift (.square :: s) = some s := rfl
@[simp] theorem shift_openCurly : (Lexeme.symbol "\x7b").shift s = some (.curly :: s) := rfl
@[simp] theorem shift_closeCurly : (Lexeme.symbol "\x7d").shift (.curly :: s) = some s := rfl

@[simp] theorem nests_cons (l : Lexeme) (ls : List Lexeme) :
    nests s (l :: ls) = (l.shift s).bind (nests · ls) := rfl

end Shift

/-! Pieces. -/

theorem Balanced.intercalate {sep : List Lexeme} {lss : List (List Lexeme)} (hs : Balanced sep)
    (h : ∀ ls ∈ lss, Balanced ls) : Balanced (sep.intercalate lss) := by
  intro s
  induction lss with
  | nil => rfl
  | cons ls lss ih =>
    cases lss with
    | nil => simpa using h ls (by simp) s
    | cons ls' lss =>
      rw [List.intercalate_cons_cons, nests_append, nests_append, h ls (by simp)]
      simp [hs s, ih fun ls hls => h ls (by simp [hls])]

theorem balanced_commaPieces {pss : List (List Piece)} (h : ∀ ps ∈ pss, Balanced (lexemes ps)) :
    Balanced (lexemes (commaPieces pss)) := by
  rw [commaPieces, lexemes_intercalate]
  exact .intercalate (fun s => by simp) (by simpa using h)

theorem balanced_dottedPieces (path : List String) : Balanced (lexemes (dottedPieces path)) := by
  rw [dottedPieces, lexemes_intercalate]
  refine .intercalate (fun s => by simp) ?_
  simp only [List.map_map, List.mem_map, forall_exists_index, and_imp]
  rintro _ w - rfl s
  simp

theorem balanced_argumentsPieces {pss : List (List Piece)}
    (h : ∀ ps ∈ pss, Balanced (lexemes ps)) : Balanced (lexemes (argumentsPieces pss)) := by
  intro s
  cases pss with
  | nil => rfl
  | cons ps pss => simp [argumentsPieces, nests_append, balanced_commaPieces h s]

theorem balanced_signedPieces {literal : String → Lexeme} (h : ∀ n s, (literal n).shift s = some s)
    (spelling : String) : Balanced (lexemes (signedPieces literal spelling)) := by
  intro s
  unfold signedPieces
  split <;> simp [h]

theorem balanced_importedPieces (source : String) (path : List String) :
    Balanced (lexemes (importedPieces source path)) := by
  intro s
  have hpath : nests s (lexemes (path.flatMap fun w => [symbol ".", word w])) = some s := by
    induction path with
    | nil => rfl
    | cons w path ih => simp [ih]
  simp [importedPieces, hpath]

theorem balanced_markPieces (modifier : List Piece) (h : Balanced (lexemes modifier))
    (m : Option Mark) : Balanced (lexemes (markPieces modifier m)) := by
  intro s
  rcases m with _ | (_ | _ | _) <;> simp [markPieces, h s]

theorem Expression.balanced_keyPieces (e : Expression) : Balanced (lexemes e.keyPieces) := by
  intro s
  cases e <;> simp [Expression.keyPieces, nests_append, balanced_dottedPieces _ _]

mutual

theorem TypeTerm.balanced (t : TypeTerm) : Balanced (lexemes t.pieces) := by
  intro s
  cases t with
  | keyword w => simp [TypeTerm.pieces]
  | this => simp [TypeTerm.pieces]
  | string v => simp [TypeTerm.pieces]
  | number n => exact balanced_signedPieces (fun _ _ => rfl) n s
  | bigint n => exact balanced_signedPieces (fun _ _ => rfl) n s
  | boolean b => simp [TypeTerm.pieces]
  | template first holes => exact balanced_holes holes first true s
  | reference path args =>
    simp [TypeTerm.pieces, nests_append, balanced_dottedPieces _ _,
      balanced_argumentsPieces (balanced_types args) _]
  | query path args =>
    simp [TypeTerm.pieces, nests_append, balanced_dottedPieces _ _,
      balanced_argumentsPieces (balanced_types args) _]
  | queryImport source path own args =>
    simp [TypeTerm.pieces, nests_append, balanced_importedPieces _ _ _,
      balanced_argumentsPieces (balanced_types own) _,
      balanced_argumentsPieces (balanced_types args) _]
  | imported source path args =>
    simp [TypeTerm.pieces, nests_append, balanced_importedPieces _ _ _,
      balanced_argumentsPieces (balanced_types args) _]
  | function gs ps r =>
    simp [TypeTerm.pieces, nests_append, balanced_commaPieces (balanced_parameters ps) _,
      r.balanced _]
  | constructor isAbstract gs ps r =>
    cases isAbstract <;>
      simp [TypeTerm.pieces, nests_append, balanced_commaPieces (balanced_parameters ps) _,
        r.balanced _]
  | object ms =>
    cases ms with
    | nil => simp [TypeTerm.pieces]
    | cons m ms =>
      have hms : ∀ ps ∈ m.pieces :: signaturesPieces ms, Balanced (lexemes ps) :=
        List.forall_mem_cons.2 ⟨m.balanced, balanced_signatures ms⟩
      simp [TypeTerm.pieces, nests_append, balanced_commaPieces hms _]
  | array t => simp [TypeTerm.pieces, nests_append, t.balanced _]
  | tuple es =>
    simp [TypeTerm.pieces, nests_append, balanced_commaPieces (balanced_elements es) _]
  | optional t => simp [TypeTerm.pieces, nests_append, t.balanced _]
  | rest t => simp [TypeTerm.pieces, t.balanced _]
  | union ts =>
    rw [TypeTerm.pieces, lexemes_intercalate]
    exact Balanced.intercalate (fun s => by simp) (by simpa using balanced_types ts) s
  | intersection ts =>
    rw [TypeTerm.pieces, lexemes_intercalate]
    exact Balanced.intercalate (fun s => by simp) (by simpa using balanced_types ts) s
  | conditional checked bound yes no =>
    simp [TypeTerm.pieces, nests_append, checked.balanced _, bound.balanced _, yes.balanced _,
      no.balanced _]
  | infer name bound =>
    simp [TypeTerm.pieces, balanced_behind [.blank, word "extends", .blank]
      (fun s => by simp) bound _]
  | parenthesized t => simp [TypeTerm.pieces, nests_append, t.balanced _]
  | operator o t => simp [TypeTerm.pieces, t.balanced _]
  | indexed t i => simp [TypeTerm.pieces, nests_append, t.balanced _, i.balanced _]
  | mapped readonly name keys renamed isOptional value =>
    simp [TypeTerm.pieces, nests_append, keys.balanced _,
      balanced_markPieces [word "readonly", .blank] (fun s => by simp) readonly _,
      balanced_markPieces [symbol "?"] (fun s => by simp) isOptional _,
      balanced_behind [.blank, word "as", .blank] (fun s => by simp) renamed _,
      balanced_behind [symbol ":", .blank] (fun s => by simp) value _]
  | predicate asserts subject t =>
    cases asserts <;>
      simp [TypeTerm.pieces, balanced_behind [.blank, word "is", .blank]
        (fun s => by simp) t _]

theorem balanced_behind (front : List Piece) (h : Balanced (lexemes front)) (t? : Option TypeTerm) :
    Balanced (lexemes (behindPieces front t?)) := by
  intro s
  cases t? with
  | none => rfl
  | some t => simp [behindPieces, nests_append, h s, t.balanced _]

theorem balanced_annotation (t? : Option TypeTerm) : Balanced (lexemes (annotationPieces t?)) := by
  cases t? with
  | none => exact fun s => by simp [annotationPieces]
  | some t => exact t.balanced

theorem balanced_types (ts : List TypeTerm) : ∀ ps ∈ typesPieces ts, Balanced (lexemes ps) := by
  cases ts with
  | nil => simp [typesPieces]
  | cons t ts =>
    rw [typesPieces]
    exact List.forall_mem_cons.2 ⟨t.balanced, balanced_types ts⟩

/-- A chunk of a template, and the holes behind it. A chunk behind a hole closes it. -/
theorem balanced_holes (hs : List Hole) (chunk : String) (opens : Bool) (s : List Bracket) :
    nests (if opens then s else .hole :: s)
      (.template chunk opens hs.isEmpty true :: lexemes (holesPieces hs)) = some s := by
  cases hs with
  | nil => cases opens <;> rfl
  | cons hole hs =>
    obtain ⟨t, next⟩ := hole
    have hshift : (Lexeme.template chunk opens false true).shift (if opens then s else .hole :: s) =
        some (.hole :: s) := by cases opens <;> rfl
    have hrest := balanced_holes hs next false s
    simp only [Bool.false_eq_true, if_false] at hrest
    simp only [List.isEmpty_cons, nests_cons, hshift, Option.bind_some, holesPieces,
      lexemes_append, lexemes_token, nests_append, t.balanced _]
    exact hrest

theorem Parameter.balanced (p : Parameter) : Balanced (lexemes p.pieces) := by
  intro s
  cases p <;> simp [Parameter.pieces, balanced_annotation _ _]

theorem balanced_parameters (ps : List Parameter) :
    ∀ qs ∈ parametersPieces ps, Balanced (lexemes qs) := by
  cases ps with
  | nil => simp [parametersPieces]
  | cons p ps =>
    rw [parametersPieces]
    exact List.forall_mem_cons.2 ⟨p.balanced, balanced_parameters ps⟩

theorem Signature.balanced (m : Signature) : Balanced (lexemes m.pieces) := by
  intro s
  cases m with
  | property readonly key isOptional t =>
    cases readonly <;> cases isOptional <;>
      simp [Signature.pieces, nests_append, Expression.balanced_keyPieces _ _,
        balanced_annotation _ _]
  | method key isOptional gs ps r =>
    cases isOptional <;>
      simp [Signature.pieces, nests_append, Expression.balanced_keyPieces _ _,
        balanced_annotation _ _, balanced_commaPieces (balanced_parameters ps) _]
  | getter key t =>
    simp [Signature.pieces, nests_append, Expression.balanced_keyPieces _ _,
      balanced_annotation _ _]
  | setter key p =>
    simp [Signature.pieces, nests_append, Expression.balanced_keyPieces _ _, p.balanced _]
  | call gs ps r o =>
    simp [Signature.pieces, nests_append, balanced_annotation _ _,
        balanced_commaPieces (balanced_parameters ps) _]
  | construct gs ps r o =>
    simp [Signature.pieces, nests_append, balanced_annotation _ _,
        balanced_commaPieces (balanced_parameters ps) _]
  | index readonly name keys t o =>
    cases readonly <;>
      simp [Signature.pieces, nests_append, keys.balanced _, balanced_annotation _ _]

theorem balanced_signatures (ms : List Signature) :
    ∀ ps ∈ signaturesPieces ms, Balanced (lexemes ps) := by
  cases ms with
  | nil => simp [signaturesPieces]
  | cons m ms =>
    rw [signaturesPieces]
    exact List.forall_mem_cons.2 ⟨m.balanced, balanced_signatures ms⟩

theorem TupleElement.balanced (e : TupleElement) : Balanced (lexemes e.pieces) := by
  intro s
  cases e with
  | plain t => exact t.balanced s
  | labelled takesRest label o t =>
    cases takesRest <;> simp [TupleElement.pieces, t.balanced _]

theorem balanced_elements (es : List TupleElement) :
    ∀ ps ∈ elementsPieces es, Balanced (lexemes ps) := by
  cases es with
  | nil => simp [elementsPieces]
  | cons e es =>
    rw [elementsPieces]
    exact List.forall_mem_cons.2 ⟨e.balanced, balanced_elements es⟩

end

end ApiSurface.Source
