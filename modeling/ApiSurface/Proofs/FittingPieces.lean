import ApiSurface.Proofs.SpelledLexemes
import ApiSurface.Proofs.SpelledTrees
import ApiSurface.Proofs.TypePieces

/-! The pieces of a type do not run together. Each is read back from its spelling in front of the
character that stands behind it, be it of the next piece or of what follows the type. -/
namespace ApiSurface.Source
open Piece Text

/-! Pieces in front of a character. -/

/-- The character in front: of the first piece, or behind all if there is none. -/
def leading (ps : List Piece) (c : Char) : Char := (spelled ps).headD c

/-- The piece may stand in the text of a type, and does not go on with this character. -/
def Piece.Fits (p : Piece) (c : Char) : Prop :=
  match p with
  | token l => l.InTypes ∧ l.ends c
  | _ => True

/-- Each piece fits what stands behind it. -/
def Fits : List Piece → Char → Prop
  | [], _ => True
  | p :: ps, c => p.Fits (leading ps c) ∧ Fits ps c

section

variable {ps qs : List Piece} {pss : List (List Piece)} {c : Char}

@[simp] theorem leading_nil : leading [] c = c := rfl
@[simp] theorem leading_blank : leading (.blank :: ps) c = ' ' := rfl
@[simp] theorem leading_quoted (v : String) : leading (.quoted v :: ps) c = '\'' := rfl
@[simp] theorem leading_token (l : Lexeme) :
    leading (.token l :: ps) c = l.spelling.headD (leading ps c) := by
  simp only [leading, spelled_cons, chars_token]
  cases l.spelling <;> rfl

@[simp] theorem leading_append : leading (ps ++ qs) c = leading ps (leading qs c) := by
  simp only [leading, spelled_append]
  cases spelled ps <;> rfl

@[simp] theorem fits_nil : Fits [] c := trivial
@[simp] theorem fits_blank : Fits (.blank :: ps) c ↔ Fits ps c := ⟨And.right, And.intro trivial⟩
@[simp] theorem fits_quoted (v : String) : Fits (.quoted v :: ps) c ↔ Fits ps c :=
  ⟨And.right, And.intro trivial⟩
@[simp] theorem fits_token (l : Lexeme) :
    Fits (.token l :: ps) c ↔ (l.InTypes ∧ l.ends (leading ps c)) ∧ Fits ps c := .rfl

@[simp] theorem fits_append : Fits (ps ++ qs) c ↔ Fits ps (leading qs c) ∧ Fits qs c := by
  induction ps with
  | nil => simp
  | cons p ps ih => rw [List.cons_append, Fits, Fits, ih, leading_append, and_assoc]

end

/-! Lexemes. -/

section

variable {c : Char}

@[simp] theorem inTypes_word (w : String) : (Lexeme.word w).InTypes ↔ IsName w := .rfl
@[simp] theorem inTypes_string (v : String) : (Lexeme.string v).InTypes := trivial
@[simp] theorem inTypes_number (s : String) : (Lexeme.number s).InTypes ↔ IsNumber .number s := .rfl
@[simp] theorem inTypes_bigint (s : String) : (Lexeme.bigint s).InTypes ↔ IsNumber .bigint s := .rfl
@[simp] theorem inTypes_template (chunk : String) (opens closes sound : Bool) :
    (Lexeme.template chunk opens closes sound).InTypes ↔ IsChunk chunk.toList sound := .rfl
@[simp] theorem inTypes_symbol (s : String) : (Lexeme.symbol s).InTypes ↔ s ∈ typeSymbols := .rfl

@[simp] theorem ends_word (w : String) : (Lexeme.word w).ends c = endsWord c := rfl
@[simp] theorem ends_string (v : String) : (Lexeme.string v).ends c := rfl
@[simp] theorem ends_number (s : String) : (Lexeme.number s).ends c = endsNumeral c := rfl
@[simp] theorem ends_bigint (s : String) : (Lexeme.bigint s).ends c = endsNumeral c := rfl
@[simp] theorem ends_template (chunk : String) (opens closes sound : Bool) :
    (Lexeme.template chunk opens closes sound).ends c := rfl
@[simp] theorem ends_symbol (s : String) :
    (Lexeme.symbol s).ends c ↔ c ∉ continuations s := endsSymbol_iff

end

attribute [simp] typeSymbols continuations

/-- The words in texts of types. -/
@[simp] theorem isName_typeWords : IsName "this" ∧ IsName "true" ∧ IsName "false" ∧ IsName "void" ∧
    IsName "typeof" ∧ IsName "import" ∧ IsName "abstract" ∧ IsName "new" ∧ IsName "extends" ∧
    IsName "infer" ∧ IsName "readonly" ∧ IsName "in" ∧ IsName "as" ∧ IsName "asserts" ∧
    IsName "is" ∧ IsName "get" ∧ IsName "set" ∧ IsName "keyof" ∧ IsName "unique" := by
  and_intros <;> exact ⟨_, _, rfl, by decide, List.all_eq_true.1 (by decide)⟩

/-! What stands behind a type. -/

/-- The characters that may stand behind a type. -/
def typeEnds : List Char := [' ', ',', ')', ']', '\x7d', '>', '[', '?', ';']

def endsType (c : Char) : Bool := typeEnds.contains c

@[simp] theorem endsType_marks : endsType ' ' ∧ endsType ',' ∧ endsType ')' ∧ endsType ']' ∧
    endsType '\x7d' ∧ endsType '>' ∧ endsType '[' ∧ endsType '?' ∧ endsType ';' := by decide

/-- A property of these characters is checked one by one. -/
theorem of_endsType {p : Char → Bool} (h : typeEnds.all p) {c : Char} (hc : endsType c) : p c :=
  List.all_eq_true.1 h c (List.contains_iff_mem.1 hc)

@[simp] theorem endsWord_of_endsType {c : Char} (hc : endsType c) : endsWord c :=
  of_endsType (by decide) hc

@[simp] theorem endsNumeral_of_endsType {c : Char} (hc : endsType c) : endsNumeral c :=
  of_endsType (by decide) hc

@[simp] theorem endsWord_marks :
    endsWord '.' ∧ endsWord '<' ∧ endsWord ':' ∧ endsWord '(' := by decide

@[simp] theorem endsNumeral_marks : endsNumeral ':' ∧ endsNumeral '(' := by decide

/-- The pieces fit, whatever stands behind a type. -/
def Settled (ps : List Piece) : Prop := ∀ ⦃c⦄, endsType c → Fits ps c

/-! Heads. -/

/-- Nothing in front of which a piece is opens a comment. -/
theorem Fits.leading_ne {ps : List Piece} {c : Char} (h : Fits ps c) (hc : c ≠ '!') :
    leading ps c ≠ '!' := by
  cases ps with
  | nil => exact hc
  | cons p ps =>
    cases p with
    | blank => exact (by decide : ' ' ≠ '!')
    | quoted v => exact (by decide : '\'' ≠ '!')
    | token l =>
      obtain ⟨⟨hl, -⟩, -⟩ := (fits_token l).1 h
      obtain ⟨d, ds, hd, -, hne, -⟩ := Lexer.spelling_head hl
      rwa [leading_token, hd]

/-! Pieces of lists and names. -/

section

variable {pss : List (List Piece)} {path : List String} {c : Char}

theorem fits_intercalate {P : Char → Prop} {sep : List Piece} (hs : ∀ d, Fits sep d)
    (hl : ∀ d, P (leading sep d)) (h : ∀ ps ∈ pss, ∀ ⦃d⦄, P d → Fits ps d) (hc : P c) :
    Fits (sep.intercalate pss) c := by
  induction pss with
  | nil => exact trivial
  | cons ps pss ih =>
    obtain ⟨hps, hpss⟩ := List.forall_mem_cons.1 h
    cases pss with
    | nil => simpa using hps hc
    | cons qs pss =>
      rw [List.intercalate_cons_cons, fits_append, fits_append]
      exact ⟨⟨hps (hl _), hs _⟩, ih hpss⟩

theorem fits_commaPieces (h : ∀ ps ∈ pss, Settled ps) (hc : endsType c) :
    Fits (commaPieces pss) c :=
  fits_intercalate (by simp) (by simp) h hc

/-- Names behind points. -/
theorem fits_points (h : ∀ w ∈ path, IsName w) (hc : endsWord c) :
    endsWord (leading (path.flatMap fun w => [symbol ".", word w]) c) ∧
      Fits (path.flatMap fun w => [symbol ".", word w]) c := by
  have hpoint : (continuations ".").all (!isIdentifierStart ·) := by decide
  induction path with
  | nil => exact ⟨hc, trivial⟩
  | cons w path ih =>
    obtain ⟨hw, hpath⟩ := List.forall_mem_cons.1 h
    obtain ⟨hends, hfits⟩ := ih hpath
    have ⟨d, ds, hd, hstart, _⟩ := hw
    have hne : d ∉ continuations "." := fun hmem => by
      simpa [hstart] using List.all_eq_true.1 hpoint d hmem
    rw [List.flatMap_cons, List.cons_append, List.cons_append, List.nil_append, fits_token,
      fits_token, leading_token, leading_token, spelling_word, hd]
    exact ⟨by simp, ⟨by simp, endsSymbol_iff.2 hne⟩, ⟨hw, hends⟩, hfits⟩

theorem dottedPieces_cons (w : String) (path : List String) :
    dottedPieces (w :: path) = word w :: path.flatMap fun w => [symbol ".", word w] := by
  induction path generalizing w with
  | nil => rfl
  | cons w' path ih =>
    have hsplit : dottedPieces (w :: w' :: path) =
        [word w, symbol "."] ++ dottedPieces (w' :: path) := by
      simp [dottedPieces, List.intercalate_cons_cons]
    rw [hsplit, ih, List.flatMap_cons]
    rfl

theorem fits_dottedPieces (h : ∀ w ∈ path, IsName w) (hc : endsWord c) :
    Fits (dottedPieces path) c := by
  cases path with
  | nil => exact trivial
  | cons w path =>
    obtain ⟨hw, hpath⟩ := List.forall_mem_cons.1 h
    obtain ⟨hends, hfits⟩ := fits_points hpath hc
    rw [dottedPieces_cons]
    exact ⟨⟨hw, hends⟩, hfits⟩

theorem fits_argumentsPieces (h : ∀ ps ∈ pss, Settled ps) : Fits (argumentsPieces pss) c := by
  cases pss with
  | nil => exact trivial
  | cons ps pss =>
    have hfits : Fits (commaPieces (ps :: pss)) '>' := fits_commaPieces h (by simp)
    have hne := hfits.leading_ne (by decide)
    simp [argumentsPieces, hfits, hne]

theorem endsWord_leading_arguments (pss : List (List Piece)) (hc : endsWord c) :
    endsWord (leading (argumentsPieces pss) c) := by
  cases pss <;> simp [argumentsPieces, hc]

/-- A name with arguments. -/
theorem fits_named (hpath : ∀ w ∈ path, IsName w) (hargs : ∀ ps ∈ pss, Settled ps)
    (hc : endsWord c) : Fits (dottedPieces path ++ argumentsPieces pss) c :=
  fits_append.2
    ⟨fits_dottedPieces hpath (endsWord_leading_arguments _ hc), fits_argumentsPieces hargs⟩

theorem fits_importedPieces (source : String) (hpath : ∀ w ∈ path, IsName w) (hc : endsWord c) :
    Fits (importedPieces source path) c := by
  simp [importedPieces, fits_points hpath hc]

theorem fits_signedPieces {literal : String → Lexeme} {spelling : String}
    (h : IsSigned literal spelling) (hl : ∀ s, IsNumber literal s → (literal s).InTypes)
    (hs : ∀ s, (literal s).spelling = s.toList) (hc : ∀ s, (literal s).ends c) :
    Fits (signedPieces literal spelling) c := by
  have hsign : ∀ d, isNumeralStart d → d ∉ continuations "-" ∧ d ≠ '-' := by
    intro d hd
    refine ⟨fun hmem => ?_, ?_⟩
    · have hall : (continuations "-").all (!isNumeralStart ·) := by decide
      simpa [hd] using List.all_eq_true.1 hall d hmem
    · rintro rfl
      exact absurd hd (by decide)
  obtain h | ⟨s, rfl, h⟩ := h
  · obtain ⟨⟨d, ds, hd, hstart⟩, -⟩ := h.numeral
    have hplain : signedPieces literal spelling = [.token (literal spelling)] := by
      unfold signedPieces
      split
      · next e =>
        rw [hd, List.cons.injEq] at e
        exact absurd e.1 (hsign d hstart).2
      · rfl
    rw [hplain, fits_token]
    exact ⟨⟨hl _ h, hc _⟩, trivial⟩
  · obtain ⟨⟨d, ds, hd, hstart⟩, -⟩ := h.numeral
    have hsigned : signedPieces literal ("-" ++ s) = [symbol "-", .token (literal s)] := by
      have hlist : ("-" ++ s).toList = '-' :: s.toList := by simp
      rw [signedPieces, hlist]
      simp
    rw [hsigned, fits_token, fits_token, leading_token, hs, hd]
    exact ⟨⟨by simp, endsSymbol_iff.2 (hsign d hstart).1⟩, ⟨hl _ h, hc _⟩, trivial⟩

theorem fits_markPieces {modifier : List Piece} (h : Fits modifier c)
    (hl : ∀ d, leading modifier d ∉ ['+', '-', '=']) (m : Option Mark) :
    Fits (markPieces modifier m) c := by
  have hne := hl c
  simp only [List.mem_cons, List.not_mem_nil, or_false, not_or] at hne
  rcases m with _ | (_ | _ | _) <;> simp [markPieces, h, hne]

theorem Expression.fits_keyPieces {e : Expression} (he : e.Spelled) (hw : endsWord c)
    (hn : endsNumeral c) : Fits e.keyPieces c := by
  cases he with
  | name h => simp [keyPieces, h, hw]
  | number h => simp [keyPieces, h, hn]
  | string => simp [keyPieces]
  | @member e p he hp =>
    have hpath : ∀ w ∈ (Expression.member e p).path?.getD [], IsName w := by
      cases hpath : (Expression.member e p).path? with
      | none => simp
      | some path => exact ((Expression.Spelled.member he hp).path hpath).2
    simp [keyPieces, fits_dottedPieces hpath]
  | _ => simp [keyPieces, Expression.path?, fits_dottedPieces]

end

/-! Types that need not be there. -/

section

variable {t : Option TypeTerm} {c : Char}

theorem fits_behindPieces (front : List Piece) (hf : ∀ d, Fits front d)
    (h : ∀ u ∈ t, Settled u.pieces) (hc : endsType c) : Fits (behindPieces front t) c := by
  cases t with
  | none => exact trivial
  | some u => exact fits_append.2 ⟨hf _, h u rfl hc⟩

theorem endsType_leading_behind (t : Option TypeTerm) (front : List Piece)
    (hf : ∀ d, endsType (leading front d)) (hc : endsType c) :
    endsType (leading (behindPieces front t) c) := by
  cases t with
  | none => exact hc
  | some u => simp [behindPieces, hf]

theorem settled_annotationPieces (h : ∀ u ∈ t, Settled u.pieces) :
    Settled (annotationPieces t) := by
  intro c hc
  cases t with
  | none => simp [annotationPieces, voidText, hc]
  | some u => exact h u rfl hc

end

/-! Types. -/

mutual

/-- The pieces of a type fit what stands behind it, but no question mark behind the one of an
element that need not be there. -/
theorem TypeTerm.fits_element (t : TypeTerm) (ht : t.SpelledElement) {c : Char}
    (hc : endsType c) (hmark : c = '?' → t.Spelled) : Fits t.pieces c := by
  cases t with
  | optional u =>
    obtain ⟨⟨⟩⟩ | hu := ht
    have hfits := u.fits_element (.one hu) (c := '?') (by simp) fun _ => hu
    have hne : c ≠ '?' := by
      rintro rfl
      cases hmark rfl
    have hpoint : c ≠ '.' := by
      rintro rfl
      cases hc
    simp [TypeTerm.pieces, hfits, hne, hpoint]
  | rest u =>
    obtain ⟨⟨⟩⟩ | - | hu := ht
    simp [TypeTerm.pieces, u.fits_element (.one hu) hc fun _ => hu]
  | keyword w =>
    have .one (.keyword hw) := ht
    simp [TypeTerm.pieces, hw, hc]
  | this => simp [TypeTerm.pieces, hc]
  | string v => simp [TypeTerm.pieces]
  | number s =>
    have .one (.number hs) := ht
    exact fits_signedPieces hs (fun _ h => h) (fun _ => rfl) fun _ => endsNumeral_of_endsType hc
  | bigint s =>
    have .one (.bigint hs) := ht
    exact fits_signedPieces hs (fun _ h => h) (fun _ => rfl) fun _ => endsNumeral_of_endsType hc
  | boolean b => cases b <;> simp [TypeTerm.pieces, hc]
  | template first holes =>
    have .one (.template hfirst hholes) := ht
    simp [TypeTerm.pieces, hfirst, holes_fit holes hholes c]
  | reference path args =>
    have .one (.reference hpath hargs) := ht
    exact fits_named hpath (types_settled args hargs) (endsWord_of_endsType hc)
  | query path args =>
    have .one (.query hpath hargs) := ht
    have hnamed := fits_named hpath (types_settled args hargs) (endsWord_of_endsType hc)
    simpa [TypeTerm.pieces] using hnamed
  | queryImport source path own args =>
    have .one (.queryImport hpath hown hargs) := ht
    have hends := endsWord_leading_arguments (typesPieces args) (endsWord_of_endsType hc)
    have himport := fits_importedPieces source hpath
      (endsWord_leading_arguments (typesPieces own) hends)
    have hargs := fits_argumentsPieces (c := c) (types_settled args hargs)
    simp [TypeTerm.pieces, himport, fits_argumentsPieces (types_settled own hown), hargs]
  | imported source path args =>
    have .one (.imported hpath hargs) := ht
    exact fits_append.2 ⟨fits_importedPieces source hpath
      (endsWord_leading_arguments _ (endsWord_of_endsType hc)),
      fits_argumentsPieces (types_settled args hargs)⟩
  | function gs ps r =>
    have .one (.function hps hr) := ht
    have hparameters := fits_commaPieces (c := ')') (parameters_settled ps hps) (by simp)
    simp [TypeTerm.pieces, hparameters, r.fits_element (.one hr) hc fun _ => hr]
  | constructor isAbstract gs ps r =>
    have .one (.constructor hps hr) := ht
    have hparameters := fits_commaPieces (c := ')') (parameters_settled ps hps) (by simp)
    have hr := r.fits_element (.one hr) hc fun _ => hr
    cases isAbstract <;> simp [TypeTerm.pieces, hparameters, hr]
  | object ms =>
    have .one (.object hms) := ht
    cases ms with
    | nil => simp [TypeTerm.pieces]
    | cons m ms =>
      obtain ⟨hm, hms⟩ := List.forall_mem_cons.1 hms
      have hmembers := fits_commaPieces (c := ' ') (List.forall_mem_cons.2
        ⟨m.settled hm, signatures_settled ms hms⟩) (by simp)
      simp [TypeTerm.pieces, hmembers]
  | array t =>
    have .one (.array ht) := ht
    simp [TypeTerm.pieces, t.fits_element (.one ht) (c := '[') (by simp) fun _ => ht]
  | operator o t =>
    have .one (.operator ht) := ht
    have hfits := t.fits_element (.one ht) hc fun _ => ht
    cases o <;> simp [TypeTerm.pieces, TypeOperator.word, hfits]
  | parenthesized t =>
    have .one (.parenthesized ht) := ht
    simp [TypeTerm.pieces, t.fits_element (.one ht) (c := ')') (by simp) fun _ => ht]
  | tuple es =>
    have .one (.tuple hes) := ht
    have helements : Fits (commaPieces (elementsPieces es)) ']' :=
      fits_intercalate (by simp) (by simp) (elements_fit es hes) (by simp)
    simp [TypeTerm.pieces, helements]
  | union ts =>
    have .one (.union hts) := ht
    exact fits_intercalate (by simp) (by simp) (types_settled ts hts) hc
  | intersection ts =>
    have .one (.intersection hts) := ht
    exact fits_intercalate (by simp) (by simp) (types_settled ts hts) hc
  | conditional checked bound yes no =>
    have .one (.conditional hchecked hbound hyes hno) := ht
    have hchecked := checked.fits_element (.one hchecked) (c := ' ') (by simp) fun _ => hchecked
    have hbound := bound.fits_element (.one hbound) (c := ' ') (by simp) fun _ => hbound
    have hyes := yes.fits_element (.one hyes) (c := ' ') (by simp) fun _ => hyes
    have hno := no.fits_element (.one hno) hc fun _ => hno
    simp [TypeTerm.pieces, hchecked, hbound, hyes, hno]
  | infer name bound =>
    have .one (.infer hname hbound) := ht
    have hbehind := fits_behindPieces [.blank, word "extends", .blank] (by simp)
      (option_settled bound hbound) hc
    have hends := endsType_leading_behind bound [.blank, word "extends", .blank]
      (by simp) hc
    simp [TypeTerm.pieces, hname, hbehind, hends]
  | predicate asserts subject t =>
    have .one (.predicate hsubject ht) := ht
    have hbehind := fits_behindPieces [.blank, word "is", .blank] (by simp)
      (option_settled t ht) hc
    have hends := endsType_leading_behind t [.blank, word "is", .blank]
      (by simp) hc
    cases asserts <;> simp [TypeTerm.pieces, hsubject, hbehind, hends]
  | indexed t i =>
    have .one (.indexed ht hi) := ht
    have ht := t.fits_element (.one ht) (c := '[') (by simp) fun _ => ht
    have hi := i.fits_element (.one hi) (c := ']') (by simp) fun _ => hi
    simp [TypeTerm.pieces, ht, hi]
  | mapped readonly name keys renamed isOptional value =>
    have .one (.mapped hname hkeys hrenamed hvalue) := ht
    have hrenamed := fits_behindPieces [.blank, word "as", .blank] (c := ']') (by simp)
      (option_settled renamed hrenamed) (by simp)
    have hends := endsType_leading_behind renamed [.blank, word "as", .blank]
      (c := ']') (by simp) (by simp)
    have hkeys := keys.fits_element (.one hkeys) hends fun _ => hkeys
    have hvalue := fits_behindPieces [symbol ":", .blank] (c := ' ') (by simp)
      (option_settled value hvalue) (by simp)
    have hreadonly : ∀ d, Fits (markPieces [word "readonly", .blank] readonly) d := fun d =>
      fits_markPieces (by simp) (by simp) readonly
    have hmark : Fits (markPieces [symbol "?"] isOptional)
        (leading (behindPieces [symbol ":", .blank] value) ' ') := by
      cases value <;> exact fits_markPieces (by simp [behindPieces]) (by simp) isOptional
    simp [TypeTerm.pieces, hname, hkeys, hrenamed, hvalue, hreadonly, hmark]

theorem option_settled (t : Option TypeTerm) (ht : ∀ u ∈ t, u.Spelled) :
    ∀ u ∈ t, Settled u.pieces := by
  cases t with
  | none => nofun
  | some t =>
    rintro _ ⟨⟩ c hc
    exact t.fits_element (.one (ht t rfl)) hc fun _ => ht t rfl

theorem types_settled (ts : List TypeTerm) (hts : ∀ t ∈ ts, t.Spelled) :
    ∀ ps ∈ typesPieces ts, Settled ps := by
  cases ts with
  | nil => nofun
  | cons t ts =>
    obtain ⟨ht, hts⟩ := List.forall_mem_cons.1 hts
    exact List.forall_mem_cons.2
      ⟨fun _ hc => t.fits_element (.one ht) hc fun _ => ht, types_settled ts hts⟩

theorem holes_fit (hs : List Hole) (hhs : ∀ h ∈ hs, h.Spelled) (c : Char) :
    Fits (holesPieces hs) c := by
  cases hs with
  | nil => exact trivial
  | cons h hs =>
    obtain ⟨t, chunk⟩ := h
    obtain ⟨⟨ht, hchunk⟩, hhs⟩ := List.forall_mem_cons.1 hhs
    have hfits := t.fits_element (.one ht) (c := '\x7d') (by simp) fun _ => ht
    simp [holesPieces, hfits, hchunk, holes_fit hs hhs c]

theorem Parameter.settled (p : Parameter) (hp : p.Spelled) : Settled p.pieces := by
  cases p with
  | named n isOptional t =>
    have .named hn ht := hp
    intro c hc
    simp [Parameter.pieces, hn, settled_annotationPieces (option_settled t ht) hc]
  | rest n t =>
    have .rest hn ht := hp
    intro c hc
    simp [Parameter.pieces, hn, settled_annotationPieces (option_settled t ht) hc]
  | _ => exact fun _ _ => trivial

theorem parameters_settled (ps : List Parameter) (hps : ∀ p ∈ ps, p.Spelled) :
    ∀ qs ∈ parametersPieces ps, Settled qs := by
  cases ps with
  | nil => nofun
  | cons p ps =>
    obtain ⟨hp, hps⟩ := List.forall_mem_cons.1 hps
    exact List.forall_mem_cons.2 ⟨p.settled hp, parameters_settled ps hps⟩

theorem Signature.settled (m : Signature) (hm : m.Spelled) : Settled m.pieces := by
  intro c hc
  cases m with
  | property readonly key isOptional t =>
    have .property hkey ht := hm
    have ht := settled_annotationPieces (option_settled t ht) hc
    cases readonly <;> cases isOptional <;>
      simp [Signature.pieces, Expression.fits_keyPieces hkey, ht]
  | method key isOptional gs ps r =>
    have .method hkey hps hr := hm
    have hparameters := fits_commaPieces (c := ')') (parameters_settled ps hps) (by simp)
    have hr := settled_annotationPieces (option_settled r hr) hc
    cases isOptional <;>
      simp [Signature.pieces, Expression.fits_keyPieces hkey, hparameters, hr]
  | getter key t =>
    have .getter hkey ht := hm
    have ht := settled_annotationPieces (option_settled t ht) hc
    simp [Signature.pieces, Expression.fits_keyPieces hkey, ht]
  | setter key p =>
    have .setter hkey hp := hm
    simp [Signature.pieces, Expression.fits_keyPieces hkey, p.settled hp (c := ')') (by simp)]
  | call gs ps r o =>
    have .call hps hr := hm
    have hparameters := fits_commaPieces (c := ')') (parameters_settled ps hps) (by simp)
    simp [Signature.pieces, hparameters, settled_annotationPieces (option_settled r hr) hc]
  | construct gs ps r o =>
    have .construct hps hr := hm
    have hparameters := fits_commaPieces (c := ')') (parameters_settled ps hps) (by simp)
    simp [Signature.pieces, hparameters, settled_annotationPieces (option_settled r hr) hc]
  | index readonly name keys t o =>
    have .index hname hkeys ht := hm
    have hkeys := keys.fits_element (.one hkeys) (c := ']') (by simp) fun _ => hkeys
    have ht := settled_annotationPieces (option_settled t ht) hc
    cases readonly <;> simp [Signature.pieces, hname, hkeys, ht]

theorem signatures_settled (ms : List Signature) (hms : ∀ m ∈ ms, m.Spelled) :
    ∀ ps ∈ signaturesPieces ms, Settled ps := by
  cases ms with
  | nil => nofun
  | cons m ms =>
    obtain ⟨hm, hms⟩ := List.forall_mem_cons.1 hms
    exact List.forall_mem_cons.2 ⟨m.settled hm, signatures_settled ms hms⟩

theorem TupleElement.fits (e : TupleElement) (he : e.Spelled) {c : Char}
    (hc : endsType c ∧ c ≠ '?') : Fits e.pieces c := by
  cases e with
  | plain t =>
    have .plain ht := he
    exact t.fits_element ht hc.1 fun h => absurd h hc.2
  | labelled takesRest label isOptional t =>
    have .labelled hlabel ht := he
    have hfits := t.fits_element ht hc.1 fun h => absurd h hc.2
    cases takesRest <;> simp [TupleElement.pieces, hlabel, hfits]

theorem elements_fit (es : List TupleElement) (hes : ∀ e ∈ es, e.Spelled) :
    ∀ ps ∈ elementsPieces es, ∀ ⦃c⦄, endsType c ∧ c ≠ '?' → Fits ps c := by
  cases es with
  | nil => nofun
  | cons e es =>
    obtain ⟨he, hes⟩ := List.forall_mem_cons.1 hes
    exact List.forall_mem_cons.2 ⟨fun _ hc => e.fits he hc, elements_fit es hes⟩

end

/-- The pieces of a type fit in front of whatever may stand behind it. -/
theorem TypeTerm.Spelled.fits {t : TypeTerm} (ht : t.Spelled) : Settled t.pieces :=
  fun _ hc => t.fits_element (.one ht) hc fun _ => ht

end ApiSurface.Source
