import ApiSurface.Proofs.LoneLexemes
import ApiSurface.Proofs.Reading
import ApiSurface.TypeText

/-! The text of a type as a list of tokens with single blanks between some of them. A tree tells its
pieces whether or not its text is refused; where it is not, the text is what the pieces spell. -/
namespace ApiSurface.Source

/-- A blank, or a token as it is spelled in the text of a type. -/
inductive Piece
  | blank
  | token (lexeme : Lexeme)
  /-- A string in single quotes. -/
  | quoted (value : String)

namespace Piece

abbrev word (w : String) : Piece := token (.word w)
abbrev symbol (s : String) : Piece := token (.symbol s)

def chars : Piece → List Char
  | blank => [' ']
  | token l => l.spelling
  | quoted v => '\'' :: v.toList ++ ['\'']

@[simp] theorem chars_blank : blank.chars = [' '] := rfl
@[simp] theorem chars_quoted (v : String) : (quoted v).chars = '\'' :: v.toList ++ ['\''] := rfl
@[simp] theorem chars_token (l : Lexeme) : (token l).chars = l.spelling := rfl

def lexeme? : Piece → Option Lexeme
  | blank => none
  | token l => some l
  | quoted v => some (.string v)

end Piece

/-- The characters of pieces. -/
def spelled (ps : List Piece) : List Char := ps.flatMap Piece.chars

/-- The lexemes of pieces. -/
def lexemes (ps : List Piece) : List Lexeme := ps.filterMap Piece.lexeme?

section

variable (p : Piece) (ps qs : List Piece)

@[simp] theorem spelled_nil : spelled [] = [] := rfl
@[simp] theorem spelled_cons : spelled (p :: ps) = p.chars ++ spelled ps := rfl
@[simp] theorem spelled_append : spelled (ps ++ qs) = spelled ps ++ spelled qs :=
  List.flatMap_append

@[simp] theorem lexemes_nil : lexemes [] = [] := rfl
@[simp] theorem lexemes_blank : lexemes (.blank :: ps) = lexemes ps := rfl
@[simp] theorem lexemes_token (l : Lexeme) : lexemes (.token l :: ps) = l :: lexemes ps := rfl
@[simp] theorem lexemes_quoted (v : String) :
    lexemes (.quoted v :: ps) = .string v :: lexemes ps := rfl
@[simp] theorem lexemes_append : lexemes (ps ++ qs) = lexemes ps ++ lexemes qs :=
  List.filterMap_append

end

open Piece

/-! Pieces of lists. -/

def commaPieces (pss : List (List Piece)) : List Piece := [symbol ",", .blank].intercalate pss

/-- A name and names behind points. -/
def dottedPieces (path : List String) : List Piece :=
  [symbol "."].intercalate (path.map fun w => [word w])

def argumentsPieces : List (List Piece) → List Piece
  | [] => []
  | pss => symbol "<" :: commaPieces pss ++ [symbol ">"]

/-- A literal with a sign in front, if its spelling has one. -/
def signedPieces (literal : String → Lexeme) (spelling : String) : List Piece :=
  match spelling.toList with
  | '-' :: cs => [symbol "-", .token (literal (String.ofList cs))]
  | _ => [.token (literal spelling)]

/-- A module and the path of something in it. -/
def importedPieces (source : String) (path : List String) : List Piece :=
  [word "import", symbol "(", .token (.string source), symbol ")"] ++
    path.flatMap fun w => [symbol ".", word w]

def markPieces (modifier : List Piece) : Option Mark → List Piece
  | none => []
  | some .plain => modifier
  | some .plus => symbol "+" :: modifier
  | some .minus => symbol "-" :: modifier

/-- The name of a member. A chain of names stands in brackets. -/
def Expression.keyPieces : Expression → List Piece
  | name n _ => [word n]
  | string v _ => [.quoted v]
  | number s _ => [.token (.number s)]
  | e => symbol "[" :: dottedPieces (e.path?.getD []) ++ [symbol "]"]

/-! Pieces of types. -/

mutual

def TypeTerm.pieces : TypeTerm → List Piece
  | .keyword w => [word w]
  | .this => [word "this"]
  | .string v => [.token (.string v)]
  | .number s => signedPieces .number s
  | .bigint s => signedPieces .bigint s
  | .boolean b => [word (if b then "true" else "false")]
  | .template first holes =>
    .token (.template first true holes.isEmpty true) :: holesPieces holes
  | .reference path args => dottedPieces path ++ argumentsPieces (typesPieces args)
  | .query path args =>
    [word "typeof", .blank] ++ dottedPieces path ++ argumentsPieces (typesPieces args)
  | .queryImport source path own args =>
    [word "typeof", .blank] ++ importedPieces source path ++ argumentsPieces (typesPieces own) ++
      argumentsPieces (typesPieces args)
  | .imported source path args => importedPieces source path ++ argumentsPieces (typesPieces args)
  | .function _ ps r =>
    symbol "(" :: commaPieces (parametersPieces ps) ++
      [symbol ")", .blank, symbol "=>", .blank] ++ r.pieces
  | .constructor isAbstract _ ps r =>
    (if isAbstract then [word "abstract", .blank] else []) ++ [word "new", .blank, symbol "("] ++
      commaPieces (parametersPieces ps) ++ [symbol ")", .blank, symbol "=>", .blank] ++ r.pieces
  | .object [] => [symbol "\x7b", symbol "\x7d"]
  | .object (m :: ms) =>
    [symbol "\x7b", .blank] ++ commaPieces (m.pieces :: signaturesPieces ms) ++
      [.blank, symbol "\x7d"]
  | .array t => t.pieces ++ [symbol "[", symbol "]"]
  | .tuple es => symbol "[" :: commaPieces (elementsPieces es) ++ [symbol "]"]
  | .optional t => t.pieces ++ [symbol "?"]
  | .rest t => symbol "..." :: t.pieces
  | .union ts => [.blank, symbol "|", .blank].intercalate (typesPieces ts)
  | .intersection ts => [.blank, symbol "&", .blank].intercalate (typesPieces ts)
  | .conditional checked bound yes no =>
    checked.pieces ++ [.blank, word "extends", .blank] ++ bound.pieces ++
      [.blank, symbol "?", .blank] ++ yes.pieces ++ [.blank, symbol ":", .blank] ++ no.pieces
  | .infer name bound =>
    [word "infer", .blank, word name] ++ behindPieces [.blank, word "extends", .blank] bound
  | .parenthesized t => symbol "(" :: t.pieces ++ [symbol ")"]
  | .operator o t => [word o.word, .blank] ++ t.pieces
  | .indexed t i => t.pieces ++ symbol "[" :: i.pieces ++ [symbol "]"]
  | .mapped readonly name keys renamed isOptional value =>
    [symbol "\x7b", .blank] ++ markPieces [word "readonly", .blank] readonly ++
      [symbol "[", word name, .blank, word "in", .blank] ++ keys.pieces ++
      behindPieces [.blank, word "as", .blank] renamed ++ [symbol "]"] ++
      markPieces [symbol "?"] isOptional ++ behindPieces [symbol ":", .blank] value ++
      [.blank, symbol "\x7d"]
  | .predicate asserts subject t =>
    (if asserts then [word "asserts", .blank] else []) ++ [word subject] ++
      behindPieces [.blank, word "is", .blank] t

/-- A type behind other pieces, if there is one. -/
def behindPieces (front : List Piece) : Option TypeTerm → List Piece
  | none => []
  | some t => front ++ t.pieces

/-- A type, or the one that stands for none. -/
def annotationPieces : Option TypeTerm → List Piece
  | none => [word voidText]
  | some t => t.pieces

def typesPieces : List TypeTerm → List (List Piece)
  | [] => []
  | t :: ts => t.pieces :: typesPieces ts

def holesPieces : List Hole → List Piece
  | [] => []
  | .mk t chunk :: hs =>
    t.pieces ++ .token (.template chunk false hs.isEmpty true) :: holesPieces hs

def Parameter.pieces : Parameter → List Piece
  | .named n _ t => [word n, symbol ":", .blank] ++ annotationPieces t
  | .rest n t => [symbol "...", word n, symbol ":", .blank] ++ annotationPieces t
  | _ => []

def parametersPieces : List Parameter → List (List Piece)
  | [] => []
  | p :: ps => p.pieces :: parametersPieces ps

def Signature.pieces : Signature → List Piece
  | .property readonly key isOptional t =>
    (if readonly then [word "readonly", .blank] else []) ++ key.value.keyPieces ++
      (if isOptional then [symbol "?"] else []) ++ [symbol ":", .blank] ++ annotationPieces t
  | .method key isOptional _ ps r =>
    key.value.keyPieces ++ (if isOptional then [symbol "?"] else []) ++
      symbol "(" :: commaPieces (parametersPieces ps) ++ [symbol ")", symbol ":", .blank] ++
      annotationPieces r
  | .getter key t =>
    [word "get", .blank] ++ key.value.keyPieces ++
      [symbol "(", symbol ")", symbol ":", .blank] ++ annotationPieces t
  | .setter key p =>
    [word "set", .blank] ++ key.value.keyPieces ++ symbol "(" :: p.pieces ++ [symbol ")"]
  | .call _ ps r _ =>
    symbol "(" :: commaPieces (parametersPieces ps) ++ [symbol ")", symbol ":", .blank] ++
      annotationPieces r
  | .construct _ ps r _ =>
    [word "new", .blank, symbol "("] ++ commaPieces (parametersPieces ps) ++
      [symbol ")", symbol ":", .blank] ++ annotationPieces r
  | .index readonly name keys t _ =>
    (if readonly then [word "readonly", .blank] else []) ++
      [symbol "[", word name, symbol ":", .blank] ++ keys.pieces ++
      [symbol "]", symbol ":", .blank] ++ annotationPieces t

def signaturesPieces : List Signature → List (List Piece)
  | [] => []
  | m :: ms => m.pieces :: signaturesPieces ms

def TupleElement.pieces : TupleElement → List Piece
  | .plain t => t.pieces
  | .labelled takesRest label _ t =>
    (if takesRest then [symbol "..."] else []) ++ [word label, symbol ":", .blank] ++ t.pieces

def elementsPieces : List TupleElement → List (List Piece)
  | [] => []
  | e :: es => e.pieces :: elementsPieces es

end

/-! Lists element by element. -/

theorem typesPieces_eq_map (ts : List TypeTerm) : typesPieces ts = ts.map TypeTerm.pieces := by
  induction ts with
  | nil => rfl
  | cons t ts ih => rw [typesPieces, ih, List.map_cons]

theorem parametersPieces_eq_map (ps : List Parameter) :
    parametersPieces ps = ps.map Parameter.pieces := by
  induction ps with
  | nil => rfl
  | cons p ps ih => rw [parametersPieces, ih, List.map_cons]

theorem signaturesPieces_eq_map (ms : List Signature) :
    signaturesPieces ms = ms.map Signature.pieces := by
  induction ms with
  | nil => rfl
  | cons m ms ih => rw [signaturesPieces, ih, List.map_cons]

theorem elementsPieces_eq_map (es : List TupleElement) :
    elementsPieces es = es.map TupleElement.pieces := by
  induction es with
  | nil => rfl
  | cons e es ih => rw [elementsPieces, ih, List.map_cons]

theorem lexemes_intercalate (sep : List Piece) (pss : List (List Piece)) :
    lexemes (sep.intercalate pss) = (lexemes sep).intercalate (pss.map lexemes) := by
  induction pss with
  | nil => rfl
  | cons ps pss ih =>
    cases pss with
    | nil => simp
    | cons qs pss => simp [List.intercalate_cons_cons, ih]

/-- Lexemes of a list, with commas between its elements. -/
theorem lexemes_commaPieces_map {α : Type} (pieces : α → List Piece) (as : List α) :
    lexemes (commaPieces (as.map pieces)) =
      [.symbol ","].intercalate (as.map fun a => lexemes (pieces a)) := by
  rw [commaPieces, lexemes_intercalate, List.map_map]
  rfl

/-! Pieces spell the text. -/

theorem spelled_intercalate (sep : List Piece) (pss : List (List Piece)) :
    spelled (sep.intercalate pss) = (spelled sep).intercalate (pss.map spelled) := by
  induction pss with
  | nil => rfl
  | cons ps pss ih =>
    cases pss with
    | nil => simp
    | cons qs pss => simp [List.intercalate_cons_cons, ih]

/-- Texts between which a separator stands, when each is spelled by pieces. -/
theorem toList_intercalate_eq {sep : List Piece} {text : String} {texts : List String}
    {pss : List (List Piece)} (hs : text.toList = spelled sep)
    (h : List.Forall₂ (fun t ps => t.toList = spelled ps) texts pss) :
    (text.intercalate texts).toList = spelled (sep.intercalate pss) := by
  rw [String.toList_intercalate, spelled_intercalate, hs]
  congr 1
  induction h with
  | nil => rfl
  | cons h _ ih => simp [h, ih]

theorem commas_toList {texts : List String} {pss : List (List Piece)}
    (h : List.Forall₂ (fun t ps => t.toList = spelled ps) texts pss) :
    (commas texts).toList = spelled (commaPieces pss) :=
  toList_intercalate_eq rfl h

theorem dotted_toList (path : List String) :
    (dotted path).toList = spelled (dottedPieces path) := by
  refine toList_intercalate_eq rfl ?_
  induction path with
  | nil => exact .nil
  | cons w path ih => exact .cons (by simp) ih

theorem argumentsText_toList {texts : List String} {pss : List (List Piece)}
    (h : List.Forall₂ (fun t ps => t.toList = spelled ps) texts pss) :
    (argumentsText texts).toList = spelled (argumentsPieces pss) := by
  cases h with
  | nil => rfl
  | cons h hs => simp [argumentsText, argumentsPieces, commas_toList (.cons h hs)]

theorem signedPieces_spelled {literal : String → Lexeme}
    (h : ∀ s, (literal s).spelling = s.toList) (spelling : String) :
    spelled (signedPieces literal spelling) = spelling.toList := by
  unfold signedPieces
  split
  · next cs hcs => simp [h, hcs]
  · simp [h]

theorem importedText_toList (source : String) (path : List String) :
    (importedText source path).toList = spelled (importedPieces source path) := by
  have hp : spelled (path.flatMap fun w => [symbol ".", word w]) =
      (path.map ("." ++ ·)).flatMap String.toList := by
    induction path with
    | nil => rfl
    | cons w path ih => simp [ih]
  simp [importedText, importedPieces, hp, quoted]

theorem markText_toList {modifier : String} {ps : List Piece} (h : modifier.toList = spelled ps)
    (m : Option Mark) : (markText modifier m).toList = spelled (markPieces ps m) := by
  rcases m with _ | (_ | _ | _) <;> simp [markText, markPieces, h]

theorem Key.text_toList {key : Key} {k : String} (h : key.text = .ok k) :
    k.toList = spelled key.value.keyPieces := by
  obtain ⟨computed, e⟩ := key
  change e.keyText = .ok k at h
  cases e with
  | name n o =>
    cases h
    simp [Expression.keyPieces]
  | string v o =>
    cases h
    simp [Expression.keyPieces]
  | number n o =>
    cases h
    simp [Expression.keyPieces]
  | member e p =>
    rw [Expression.keyText] at h
    split at h
    · next path hp =>
      cases h
      simp [Expression.keyPieces, hp, dotted_toList]
    · cases h
  | _ => cases h

mutual

/-- The pieces of a type spell its text. -/
theorem TypeTerm.text_toList {t : TypeTerm} {s : String} (h : t.text = .ok s) :
    s.toList = spelled t.pieces := by
  cases t with
  | keyword w =>
    cases h
    simp [TypeTerm.pieces]
  | this =>
    cases h
    rfl
  | string v =>
    cases h
    simp [TypeTerm.pieces, quoted]
  | number n =>
    cases h
    rw [TypeTerm.pieces, signedPieces_spelled fun _ => rfl]
  | bigint n =>
    cases h
    rw [TypeTerm.pieces, signedPieces_spelled fun _ => rfl]
  | boolean b =>
    cases h
    cases b <;> rfl
  | template first holes =>
    obtain ⟨hs, hhs, e⟩ := Except.bind_eq_ok.1 h
    cases e
    have := holesText_toList hhs
    simp [TypeTerm.pieces, ← this]
  | reference path args =>
    obtain ⟨as, has, e⟩ := Except.bind_eq_ok.1 h
    cases e
    simp [TypeTerm.pieces, dotted_toList, argumentsText_toList (typeTexts_toList has)]
  | query path args =>
    obtain ⟨as, has, e⟩ := Except.bind_eq_ok.1 h
    cases e
    simp [TypeTerm.pieces, dotted_toList, argumentsText_toList (typeTexts_toList has)]
  | queryImport source path own args =>
    obtain ⟨os, hos, h⟩ := Except.bind_eq_ok.1 h
    obtain ⟨as, has, e⟩ := Except.bind_eq_ok.1 h
    cases e
    simp [TypeTerm.pieces, importedText_toList, argumentsText_toList (typeTexts_toList hos),
      argumentsText_toList (typeTexts_toList has)]
  | imported source path args =>
    obtain ⟨as, has, e⟩ := Except.bind_eq_ok.1 h
    cases e
    simp [TypeTerm.pieces, importedText_toList, argumentsText_toList (typeTexts_toList has)]
  | function gs ps r =>
    obtain ⟨ts, hts, h⟩ := Except.bind_eq_ok.1 h
    obtain ⟨rt, hr, e⟩ := Except.bind_eq_ok.1 h
    cases e
    simp [TypeTerm.pieces, commas_toList (parameterTexts_toList hts), TypeTerm.text_toList hr]
  | constructor isAbstract gs ps r =>
    obtain ⟨ts, hts, h⟩ := Except.bind_eq_ok.1 h
    obtain ⟨rt, hr, e⟩ := Except.bind_eq_ok.1 h
    cases e
    cases isAbstract <;>
      simp [TypeTerm.pieces, commas_toList (parameterTexts_toList hts), TypeTerm.text_toList hr]
  | object ms =>
    cases ms with
    | nil =>
      cases h
      rfl
    | cons m ms =>
      obtain ⟨f, hf, h⟩ := Except.bind_eq_ok.1 h
      obtain ⟨ts, hts, e⟩ := Except.bind_eq_ok.1 h
      cases e
      have hm := commas_toList (.cons (Signature.text_toList hf) (signaturesText_toList hts))
      simp [TypeTerm.pieces, braced, hm]
  | array t =>
    obtain ⟨e, he, h⟩ := Except.bind_eq_ok.1 h
    cases h
    simp [TypeTerm.pieces, TypeTerm.text_toList he]
  | tuple es =>
    obtain ⟨ts, hts, e⟩ := Except.bind_eq_ok.1 h
    cases e
    simp [TypeTerm.pieces, commas_toList (elementsText_toList hts)]
  | optional t =>
    obtain ⟨e, he, h⟩ := Except.bind_eq_ok.1 h
    cases h
    simp [TypeTerm.pieces, TypeTerm.text_toList he]
  | rest t =>
    obtain ⟨e, he, h⟩ := Except.bind_eq_ok.1 h
    cases h
    simp [TypeTerm.pieces, TypeTerm.text_toList he]
  | union ts =>
    obtain ⟨texts, hts, e⟩ := Except.bind_eq_ok.1 h
    cases e
    rw [TypeTerm.pieces]
    exact toList_intercalate_eq rfl (typeTexts_toList hts)
  | intersection ts =>
    obtain ⟨texts, hts, e⟩ := Except.bind_eq_ok.1 h
    cases e
    rw [TypeTerm.pieces]
    exact toList_intercalate_eq rfl (typeTexts_toList hts)
  | conditional checked bound yes no =>
    obtain ⟨c, hc, h⟩ := Except.bind_eq_ok.1 h
    obtain ⟨b, hb, h⟩ := Except.bind_eq_ok.1 h
    obtain ⟨y, hy, h⟩ := Except.bind_eq_ok.1 h
    obtain ⟨n, hn, e⟩ := Except.bind_eq_ok.1 h
    cases e
    simp [TypeTerm.pieces, TypeTerm.text_toList hc, TypeTerm.text_toList hb,
      TypeTerm.text_toList hy, TypeTerm.text_toList hn]
  | infer name bound =>
    obtain ⟨b, hb, e⟩ := Except.bind_eq_ok.1 h
    cases e
    have hb' : b.toList = spelled (behindPieces [.blank, word "extends", .blank] bound) :=
      behindText_toList (by simp) hb
    simp [TypeTerm.pieces, hb']
  | parenthesized t =>
    obtain ⟨e, he, h⟩ := Except.bind_eq_ok.1 h
    cases h
    simp [TypeTerm.pieces, TypeTerm.text_toList he]
  | operator o t =>
    obtain ⟨e, he, h⟩ := Except.bind_eq_ok.1 h
    cases h
    simp [TypeTerm.pieces, TypeTerm.text_toList he]
  | indexed t i =>
    obtain ⟨object, ho, h⟩ := Except.bind_eq_ok.1 h
    obtain ⟨index, hi, e⟩ := Except.bind_eq_ok.1 h
    cases e
    simp [TypeTerm.pieces, TypeTerm.text_toList ho, TypeTerm.text_toList hi]
  | mapped readonly name keys renamed isOptional value =>
    obtain ⟨k, hk, h⟩ := Except.bind_eq_ok.1 h
    obtain ⟨n, hn, h⟩ := Except.bind_eq_ok.1 h
    obtain ⟨v, hv, e⟩ := Except.bind_eq_ok.1 h
    cases e
    have hr : (markText "readonly " readonly).toList = _ :=
      markText_toList (by simp : _ = spelled [word "readonly", .blank]) readonly
    have ho : (markText "?" isOptional).toList = _ :=
      markText_toList (by simp : _ = spelled [symbol "?"]) isOptional
    have hn' : n.toList = spelled (behindPieces [.blank, word "as", .blank] renamed) :=
      behindText_toList (by simp) hn
    have hv' : v.toList = spelled (behindPieces [symbol ":", .blank] value) :=
      behindText_toList (by simp) hv
    simp [TypeTerm.pieces, braced, TypeTerm.text_toList hk, hn', hv', hr, ho]
  | predicate asserts subject t =>
    obtain ⟨b, hb, e⟩ := Except.bind_eq_ok.1 h
    cases e
    have hb' : b.toList = spelled (behindPieces [.blank, word "is", .blank] t) :=
      behindText_toList (by simp) hb
    cases asserts <;> simp [TypeTerm.pieces, hb']

theorem behindText_toList {front : String} {fs : List Piece} (hf : front.toList = spelled fs)
    {t : Option TypeTerm} {s : String} (h : behindText front t = .ok s) :
    s.toList = spelled (behindPieces fs t) := by
  cases t with
  | none =>
    cases h
    rfl
  | some t =>
    obtain ⟨e, he, h⟩ := Except.bind_eq_ok.1 h
    cases h
    simp [behindPieces, hf, TypeTerm.text_toList he]

theorem annotationText_toList {t : Option TypeTerm} {s : String} (h : annotationText t = .ok s) :
    s.toList = spelled (annotationPieces t) := by
  cases t with
  | none =>
    cases h
    rfl
  | some t => exact TypeTerm.text_toList h

theorem typeTexts_toList {ts : List TypeTerm} {texts : List String}
    (h : typeTexts ts = .ok texts) :
    List.Forall₂ (fun t ps => t.toList = spelled ps) texts (typesPieces ts) := by
  cases ts with
  | nil =>
    cases h
    exact .nil
  | cons t ts =>
    obtain ⟨f, hf, h⟩ := Except.bind_eq_ok.1 h
    obtain ⟨fs, hfs, e⟩ := Except.bind_eq_ok.1 h
    cases e
    exact .cons (TypeTerm.text_toList hf) (typeTexts_toList hfs)

/-- What stands between the first chunk of a template and its end, both included in part. -/
theorem holesText_toList {hs : List Hole} {s : String} (h : holesText hs = .ok s) :
    chunkEnd hs.isEmpty ++ spelled (holesPieces hs) = s.toList ++ ['\x60'] := by
  cases hs with
  | nil =>
    cases h
    rfl
  | cons hole hs =>
    obtain ⟨t, chunk⟩ := hole
    obtain ⟨f, hf, h⟩ := Except.bind_eq_ok.1 h
    obtain ⟨fs, hfs, e⟩ := Except.bind_eq_ok.1 h
    cases e
    have := holesText_toList hfs
    simp [holesPieces, braced, TypeTerm.text_toList hf, ← this]

theorem Parameter.parts_toList {p : Parameter} {name type : String}
    (h : p.parts = .ok (name, type)) :
    (parameterText (name, type)).toList = spelled p.pieces := by
  cases p with
  | named n o t =>
    obtain ⟨e, he, h⟩ := Except.bind_eq_ok.1 h
    cases h
    simp [Parameter.pieces, parameterText, annotationText_toList he]
  | rest n t =>
    obtain ⟨e, he, h⟩ := Except.bind_eq_ok.1 h
    cases h
    simp [Parameter.pieces, parameterText, annotationText_toList he]
  | _ => cases h

theorem parameterTexts_toList {ps : List Parameter} {texts : List String}
    (h : parameterTexts ps = .ok texts) :
    List.Forall₂ (fun t ps => t.toList = spelled ps) texts (parametersPieces ps) := by
  cases ps with
  | nil =>
    cases h
    exact .nil
  | cons p ps =>
    obtain ⟨f, hf, h⟩ := Except.bind_eq_ok.1 h
    obtain ⟨fs, hfs, e⟩ := Except.bind_eq_ok.1 h
    cases e
    exact .cons (Parameter.parts_toList hf) (parameterTexts_toList hfs)

theorem Signature.text_toList {m : Signature} {s : String} (h : m.text = .ok s) :
    s.toList = spelled m.pieces := by
  cases m with
  | property readonly key isOptional t =>
    obtain ⟨k, hk, h⟩ := Except.bind_eq_ok.1 h
    obtain ⟨e, he, h⟩ := Except.bind_eq_ok.1 h
    cases h
    cases readonly <;> cases isOptional <;>
      simp [Signature.pieces, Key.text_toList hk, annotationText_toList he]
  | method key isOptional gs ps r =>
    obtain ⟨k, hk, h⟩ := Except.bind_eq_ok.1 h
    obtain ⟨ts, hts, h⟩ := Except.bind_eq_ok.1 h
    obtain ⟨e, he, h⟩ := Except.bind_eq_ok.1 h
    cases h
    cases isOptional <;>
      simp [Signature.pieces, Key.text_toList hk, commas_toList (parameterTexts_toList hts),
        annotationText_toList he]
  | getter key t =>
    obtain ⟨k, hk, h⟩ := Except.bind_eq_ok.1 h
    obtain ⟨e, he, h⟩ := Except.bind_eq_ok.1 h
    cases h
    simp [Signature.pieces, Key.text_toList hk, annotationText_toList he]
  | setter key p =>
    obtain ⟨⟨name, type⟩, hp, h⟩ := Except.bind_eq_ok.1 h
    obtain ⟨k, hk, h⟩ := Except.bind_eq_ok.1 h
    cases h
    simp [Signature.pieces, Key.text_toList hk, Parameter.parts_toList hp]
  | call gs ps r o =>
    obtain ⟨ts, hts, h⟩ := Except.bind_eq_ok.1 h
    obtain ⟨e, he, h⟩ := Except.bind_eq_ok.1 h
    cases h
    simp [Signature.pieces, commas_toList (parameterTexts_toList hts), annotationText_toList he]
  | construct gs ps r o =>
    obtain ⟨ts, hts, h⟩ := Except.bind_eq_ok.1 h
    obtain ⟨e, he, h⟩ := Except.bind_eq_ok.1 h
    cases h
    simp [Signature.pieces, commas_toList (parameterTexts_toList hts), annotationText_toList he]
  | index readonly name keys t o =>
    obtain ⟨k, hk, h⟩ := Except.bind_eq_ok.1 h
    obtain ⟨e, he, h⟩ := Except.bind_eq_ok.1 h
    cases h
    cases readonly <;>
      simp [Signature.pieces, parameterText, TypeTerm.text_toList hk, annotationText_toList he]

theorem signaturesText_toList {ms : List Signature} {texts : List String}
    (h : signaturesText ms = .ok texts) :
    List.Forall₂ (fun t ps => t.toList = spelled ps) texts (signaturesPieces ms) := by
  cases ms with
  | nil =>
    cases h
    exact .nil
  | cons m ms =>
    obtain ⟨f, hf, h⟩ := Except.bind_eq_ok.1 h
    obtain ⟨fs, hfs, e⟩ := Except.bind_eq_ok.1 h
    cases e
    exact .cons (Signature.text_toList hf) (signaturesText_toList hfs)

theorem TupleElement.text_toList {e : TupleElement} {s : String} (h : e.text = .ok s) :
    s.toList = spelled e.pieces := by
  cases e with
  | plain t => exact TypeTerm.text_toList h
  | labelled takesRest label o t =>
    obtain ⟨e, he, h⟩ := Except.bind_eq_ok.1 h
    cases h
    cases takesRest <;> simp [TupleElement.pieces, parameterText, TypeTerm.text_toList he]

theorem elementsText_toList {es : List TupleElement} {texts : List String}
    (h : elementsText es = .ok texts) :
    List.Forall₂ (fun t ps => t.toList = spelled ps) texts (elementsPieces es) := by
  cases es with
  | nil =>
    cases h
    exact .nil
  | cons e es =>
    obtain ⟨f, hf, h⟩ := Except.bind_eq_ok.1 h
    obtain ⟨fs, hfs, e⟩ := Except.bind_eq_ok.1 h
    cases e
    exact .cons (TupleElement.text_toList hf) (elementsText_toList hfs)

end

end ApiSurface.Source
