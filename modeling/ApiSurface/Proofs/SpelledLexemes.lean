import ApiSurface.Proofs.Spelling

/-! Lexemes are scanned from their spelling. Which character may stand behind a lexeme depends on
the lexeme: a word goes on with letters, and some symbols go on with others. -/
namespace ApiSurface.Source
open Text Text.Scan

/-! Words. -/

/-- No word goes on with this character. -/
def endsWord (c : Char) : Bool := !(isIdentifierPart c || c = '\\')

theorem identifierChar_of_part {p : Char → Bool} {c : Char} (hc : p c) (hpart : isIdentifierPart c)
    (cs : List Char) : identifierChar p (c :: cs) = some ((c, false), cs) := by
  have hslash : c ≠ '\\' := ne_of_isIdentifierPart hpart (by decide)
  simp only [identifierChar, scan_bind_apply, Scan.next, Option.bind_some, hc, if_true]
  rfl

theorem identifierRest_of_parts {cs q : List Char} (h : ∀ c ∈ cs, isIdentifierPart c)
    (hq : Opens endsWord q) {n : Nat} (hn : cs.length < n) :
    identifierRest n (cs ++ q) = some ((cs, false), q) := by
  induction cs generalizing n with
  | nil =>
    obtain ⟨n, rfl⟩ : ∃ m, n = m + 1 := ⟨n - 1, by omega⟩
    cases q with
    | nil => rfl
    | cons c q =>
      have hc : ¬(c = '\\' || isIdentifierPart c) = true := by
        have hc := opens_cons.1 hq
        rw [endsWord, Bool.or_comm, Bool.not_eq_true'] at hc
        simp [hc]
      simp only [List.nil_append, identifierRest, scan_bind_apply, peek?, List.head?_cons,
        Option.bind_some, if_neg hc]
      rfl
  | cons c cs ih =>
    obtain ⟨n, rfl⟩ : ∃ m, n = m + 1 := ⟨n - 1, by omega⟩
    obtain ⟨hc, hcs⟩ := List.forall_mem_cons.1 h
    have hchar := identifierChar_of_part hc hc (cs ++ q)
    simp only [List.cons_append, identifierRest, scan_bind_apply, peek?, List.head?_cons,
      Option.bind_some, if_pos (show (c = '\\' || isIdentifierPart c) = true by simp [hc]), hchar,
      ih hcs (Nat.lt_of_succ_lt_succ hn)]
    rfl

theorem word_spelling {w : String} (h : IsName w) {q : List Char} (hq : Opens endsWord q) :
    Lexer.word (w.toList ++ q) = some (.word w, q) := by
  obtain ⟨c, cs, hw, hc, hcs⟩ := h
  have hchar := identifierChar_of_part hc (isIdentifierPart_of_start hc) (cs ++ q)
  have hrest := identifierRest_of_parts hcs hq (n := (cs ++ q).length + 1)
    (by rw [List.length_append]; omega)
  have hid : identifier (w.toList ++ q) = some ((w, false), q) := by
    rw [hw, List.cons_append]
    simp only [identifier, scan_bind_apply, hchar, Option.bind_some, hrest]
    rw [← hw, String.ofList_toList]
    rfl
  simp only [Lexer.word, scan_bind_apply, hid, Option.bind_some]
  rfl

/-! Strings. -/

/-- A text that stands between quotes as it is. -/
def isPlainText (quote : Char) (cs : List Char) : Bool :=
  cs.all fun c => !([quote, '\\', '\n', '\r'].contains c)

theorem charsOfUnits_toNat (cs : List Char) : charsOfUnits (cs.map Char.toNat) = cs := by
  have hlone : ∀ c : Char, (isHighSurrogate c.toNat || isLowSurrogate c.toNat) = false := by
    intro c
    have hvalid : c.toNat < 0xd800 ∨ 0xdfff < c.toNat ∧ c.toNat < 0x110000 := c.valid
    simp only [isHighSurrogate, isLowSurrogate, Bool.or_eq_false_iff, Bool.and_eq_false_iff,
      decide_eq_false_iff_not]
    omega
  induction cs with
  | nil => rfl
  | cons c cs ih =>
    cases cs with
    | nil => simp [charsOfUnits, hlone c]
    | cons d cs =>
      obtain ⟨hhigh, hlow⟩ := Bool.or_eq_false_iff.1 (hlone c)
      rw [List.map_cons, List.map_cons, charsOfUnits, ← List.map_cons, ih]
      simp [hhigh, hlow]

theorem stringBody_of_plain {quote : Char} (hslash : quote ≠ '\\') {v : String}
    (hv : isPlainText quote v.toList) (q : List Char) :
    stringBody quote (v.toList ++ quote :: q) = some (v, q) := by
  have hplain : ∀ c ∈ v.toList, c ∉ [quote, '\\', '\n', '\r'] := fun c hc => by
    simpa using List.all_eq_true.1 hv c hc
  have hunits : ∀ {cs : List Char} {n : Nat}, (∀ c ∈ cs, c ∉ [quote, '\\', '\n', '\r']) →
      cs.length < n → stringUnits quote n (cs ++ quote :: q) = some (cs.map Char.toNat, q) := by
    intro cs n hcs hn
    induction cs generalizing n with
    | nil =>
      obtain ⟨n, rfl⟩ : ∃ m, n = m + 1 := ⟨n - 1, by omega⟩
      rw [List.nil_append, Lexer.stringUnits_cons hslash, if_pos rfl]
      rfl
    | cons c cs ih =>
      obtain ⟨n, rfl⟩ : ∃ m, n = m + 1 := ⟨n - 1, by omega⟩
      obtain ⟨hc, hcs⟩ := List.forall_mem_cons.1 hcs
      simp only [List.mem_cons, List.not_mem_nil, or_false, not_or] at hc
      rw [List.cons_append, Lexer.stringUnits_cons hc.2.1, if_neg hc.1, if_neg (by simp [hc]),
        ih hcs (Nat.lt_of_succ_lt_succ hn)]
      rfl
  rw [stringBody, scan_map_apply, hunits hplain (by rw [List.length_append]; omega),
    Option.map_some, charsOfUnits_toNat, String.ofList_toList]

/-! Symbols. -/

/-- The symbols in texts of types. -/
def typeSymbols : List String :=
  ["...", "=>", "\x7b", "\x7d", "(", ")", "[", "]", ";", ",", "<", ">", "?", ":", ".", "=",
    "+", "-", "&", "|"]

/-- Characters with which a symbol of types goes on to another symbol, a comment or a number. -/
def continuations : String → List Char
  | "<" => ['!']
  | "?" => ['?', '.']
  | "." => ['.', '0', '1', '2', '3', '4', '5', '6', '7', '8', '9']
  | "=" => ['=', '>']
  | "+" => ['+', '=']
  | "-" => ['-', '=']
  | "&" => ['&', '=']
  | "|" => ['|', '=']
  | _ => []

/-- The symbol does not go on with this character. -/
def endsSymbol (s : String) (c : Char) : Bool := !(continuations s).contains c

theorem endsSymbol_iff {s : String} {c : Char} : endsSymbol s c ↔ c ∉ continuations s := by
  simp [endsSymbol]

/-- A point goes on with any digit. -/
theorem mem_continuations_of_isDigit {c : Char} (h : c.isDigit) : c ∈ continuations "." := by
  have hrange : 48 ≤ c.toNat ∧ c.toNat ≤ 57 := by
    simpa [Char.isDigit, UInt32.le_iff_toNat_le] using h
  obtain ⟨n, hn⟩ : ∃ n, n = c.toNat := ⟨_, rfl⟩
  rw [← hn] at hrange
  rw [← Char.ofNat_toNat c, ← hn]
  clear hn h
  obtain ⟨hlow, hhigh⟩ := hrange
  interval_cases n <;> decide

/-- Only a continuation leads from a symbol of types to another symbol. -/
theorem mem_continuations {s t : String} {c : Char} (hs : s ∈ typeSymbols)
    (ht : t ∈ "?." :: Lexer.symbols) (h : s.toList ++ [c] <+: t.toList) : c ∈ continuations s := by
  have hall : ∀ s ∈ typeSymbols, ("?." :: Lexer.symbols).all fun t =>
      !s.toList.isPrefixOf t.toList ||
        (t.toList.drop s.toList.length).head?.all (continuations s).contains := by decide
  obtain ⟨more, hmore⟩ := h
  have hsplit : t.toList = s.toList ++ c :: more := by simp [← hmore]
  have hfront : s.toList.isPrefixOf t.toList := List.isPrefixOf_iff_prefix.2 ⟨_, hsplit.symm⟩
  have hmem := List.all_eq_true.1 (hall s hs) t ht
  rw [hfront, hsplit, List.drop_left] at hmem
  simpa using hmem

theorem symbol_spelling {s : String} {c : Char} (hs : s ∈ typeSymbols) (hc : endsSymbol s c)
    (cs : List Char) : Lexer.symbol (s.toList ++ c :: cs) = some (.symbol s, c :: cs) := by
  have hnone : ∀ t ∈ "?." :: Lexer.symbols, ¬ s.toList ++ [c] <+: t.toList :=
    fun t ht hp => endsSymbol_iff.1 hc (mem_continuations hs ht hp)
  -- A prefix of the text that is not longer than the symbol is one of the symbol.
  have hshort : ∀ t ∈ "?." :: Lexer.symbols, t.toList <+: s.toList ++ c :: cs →
      t.toList <+: s.toList := by
    intro t ht hp
    by_contra hlong
    have hlength : s.toList.length < t.toList.length := by
      by_contra hle
      exact hlong (List.prefix_of_prefix_length_le hp (List.prefix_append _ _) (by omega))
    have hfront : s.toList ++ [c] <+: s.toList ++ c :: cs := ⟨cs, by simp⟩
    exact hnone t ht (List.prefix_of_prefix_length_le hfront hp (by simpa using hlength))
  have hchain : Lexer.opensChain (s.toList ++ c :: cs) = false := by
    have hown : ∀ s ∈ typeSymbols, ¬ "?.".toList <+: s.toList := by decide
    by_contra ho
    refine hown s hs (hshort "?." (by simp) ?_)
    unfold Lexer.opensChain at ho
    split at ho
    · next e => exact ⟨_, by rw [e]; rfl⟩
    · next e => exact ⟨[], by rw [e]; rfl⟩
    · exact absurd rfl ho
  have hfind : Lexer.symbols.find? (fun t => t.toList.isPrefixOf (s.toList ++ c :: cs)) =
      Lexer.symbols.find? fun t => t.toList.isPrefixOf s.toList := by
    refine List.find?_congr fun t ht => ?_
    rw [Bool.eq_iff_iff, List.isPrefixOf_iff_prefix, List.isPrefixOf_iff_prefix]
    exact ⟨hshort t (by simp [ht]), fun hp => hp.trans (List.prefix_append _ _)⟩
  have hself : ∀ s ∈ typeSymbols,
      (Lexer.symbols.find? fun t => t.toList.isPrefixOf s.toList) = some s := by decide
  rw [Lexer.symbol, hchain, if_neg Bool.false_ne_true, hfind, hself s hs]
  show some (Lexeme.symbol s, (s.toList ++ c :: cs).drop s.length) = _
  rw [← String.length_toList, List.drop_left]

/-! Lexemes. -/

namespace Lexeme

/-- A lexeme as the text of a type may have it. What a string holds does not count. -/
def InTypes : Lexeme → Prop
  | word w => IsName w
  | string _ => True
  | number s => IsNumber number s
  | bigint s => IsNumber bigint s
  | template chunk _ _ sound => IsChunk chunk.toList sound
  | symbol s => s ∈ typeSymbols
  | privateName _ | regex => False

/-- The lexeme does not go on with this character. -/
def ends : Lexeme → Char → Bool
  | word _, c => endsWord c
  | number _, c | bigint _, c => endsNumeral c
  | symbol s, c => endsSymbol s c
  | _, _ => true

end Lexeme

namespace Lexer

variable {operand hole : Bool} {c : Char} {cs : List Char}

theorem startsNumber_of_ne {c : Char} (hc : c ≠ '.') (cs : List Char) :
    startsNumber (c :: cs) = c.isDigit := by
  unfold startsNumber
  split <;> simp_all

theorem startsNumber_of_digits {ds rest : List Char}
    (h : Numeral.digits Char.isDigit cs = some (ds, rest)) :
    ∃ d more, cs = d :: more ∧ d.isDigit := by
  obtain ⟨w, rfl, hw, -⟩ := Numeral.digits_copies (fun _ => Numeral.isDigit_of_endsNumeral) h
  obtain rfl : ds = w := hw
  obtain ⟨⟨d, ds, rfl, hd⟩, -⟩ := Numeral.decimalDigits_scans h
  exact ⟨d, _, rfl, hd⟩

theorem startsNumber_of_decimal {l : Lexeme} {rest : List Char}
    (h : Numeral.decimal cs = some (l, rest)) : startsNumber cs := by
  obtain ⟨point, mid, hpoint, hmore⟩ := scan_bind_eq_some.1 h
  clear h
  obtain ⟨ds, hdigits⟩ : ∃ ds, ∃ rest', Numeral.digits Char.isDigit mid = some (ds, rest') := by
    split at hmore
    · obtain ⟨ds, rest', hds, -⟩ := scan_bind_eq_some.1 hmore
      exact ⟨ds, rest', hds⟩
    · obtain ⟨ds, rest', hds, -⟩ := scan_bind_eq_some.1 hmore
      exact ⟨ds, rest', hds⟩
  obtain ⟨rest', hdigits⟩ := hdigits
  obtain ⟨d, more, rfl, hd⟩ := startsNumber_of_digits hdigits
  cases cs with
  | nil => cases hpoint
  | cons c cs =>
    rw [Numeral.maybe_cons] at hpoint
    split at hpoint
    · next hc =>
      cases hpoint
      obtain rfl : c = '.' := of_decide_eq_true hc
      exact hd
    · next hc =>
      cases hpoint
      rwa [startsNumber_of_ne (by simpa using hc)]

/-- What the scanner of numbers reads looks like a number. -/
theorem startsNumber_of_scan {l : Lexeme} {rest : List Char}
    (h : Numeral.scan cs = some (l, rest)) : startsNumber cs := by
  obtain ⟨l', mid, hl, -⟩ := scan_bind_eq_some.1 h
  by_cases hzero : ∃ ds, cs = '0' :: ds
  · obtain ⟨ds, rfl⟩ := hzero
    exact startsNumber_of_ne (by decide) ds
  · rw [Numeral.literal_eq_decimal fun c ds e => absurd ⟨_, e⟩ hzero] at hl
    exact startsNumber_of_decimal hl

theorem lexeme_word {w : String} (h : IsName w) (hc : endsWord c) :
    lexeme operand hole (w.toList ++ c :: cs) = some (.word w, c :: cs) := by
  have hword := word_spelling h (opens_cons.2 hc : Opens endsWord (c :: cs))
  obtain ⟨d, ds, hw, hd, -⟩ := h
  have hne : ∀ e, isIdentifierStart e = false → d ≠ e := by
    rintro e he rfl
    rw [hd] at he
    cases he
  have hdigit := isDigit_of_isIdentifierStart hd
  rw [hw, List.cons_append] at hword ⊢
  simp only [lexeme, hne '"' (by decide), hne '\'' (by decide), hne '\x60' (by decide),
    hne '\x7d' (by decide), hne '#' (by decide), hne '/' (by decide),
    startsNumber_of_ne (hne '.' (by decide)), hdigit, hd]
  exact hword

theorem lexeme_number {literal : String → Lexeme} {s : String} (h : IsNumber literal s)
    (hc : endsNumeral c) :
    lexeme operand hole (s.toList ++ c :: cs) = some (literal s, c :: cs) := by
  have hscan := h.read _ (opens_cons.2 hc : Opens endsNumeral (c :: cs))
  have hstarts := startsNumber_of_scan hscan
  obtain ⟨⟨d, ds, hs, hd⟩, -⟩ := h.numeral
  have hne : ∀ e, isNumeralStart e = false → d ≠ e := by
    rintro e he rfl
    rw [hd] at he
    cases he
  rw [hs, List.cons_append] at hscan hstarts ⊢
  simp only [lexeme, hne '"' (by decide), hne '\'' (by decide), hne '\x60' (by decide),
    hne '\x7d' (by decide), hne '#' (by decide), hne '/' (by decide), hstarts]
  exact hscan

theorem lexeme_string {quote : Char} {v : String} (hquote : quote = '"' ∨ quote = '\'')
    (hv : isPlainText quote v.toList) :
    lexeme operand hole (quote :: (v.toList ++ quote :: cs)) = some (.string v, cs) := by
  have hslash : quote ≠ '\\' := by
    rintro rfl
    simp at hquote
  have hbody := stringBody_of_plain hslash hv cs
  rw [lexeme, if_pos (by simpa using hquote), scan_map_apply, hbody]
  rfl

theorem template_chunk {chunk : String} {opens closes sound : Bool}
    (h : IsChunk chunk.toList sound) : template opens (chunk.toList ++ (chunkEnd closes ++ cs)) =
      some (.template chunk opens closes sound, cs) := by
  rw [template, scan_bind_apply, h closes cs, Option.bind_some]
  dsimp only
  rw [String.ofList_toList]
  rfl

/-- The first character of a symbol of types opens no other lexeme. -/
theorem typeSymbols_head : ∀ s ∈ typeSymbols, (match s.toList with
    | d :: ds => decide (d ∉ ['"', '\'', '\x60', '#', '/', '\\'] ∧ d.isDigit = false ∧
        isIdentifierStart d = false ∧ (d = '\x7d' → s = "\x7d") ∧
        (d = '.' → ds = [] ∨ ds = ['.', '.']))
    | [] => false) = true := by decide

theorem lexeme_symbol {s : String} (hs : s ∈ typeSymbols) (hc : endsSymbol s c)
    (hhole : s = "\x7d" → hole = false) :
    lexeme operand hole (s.toList ++ c :: cs) = some (.symbol s, c :: cs) := by
  have hhead := typeSymbols_head s hs
  have hsymbol := symbol_spelling hs hc cs
  cases hd : s.toList with
  | nil =>
    rw [hd] at hhead
    cases hhead
  | cons d ds =>
  rw [hd] at hhead hsymbol
  obtain ⟨hne, hdigit, hstart, hbrace, hpoint⟩ := of_decide_eq_true hhead
  simp only [List.mem_cons, List.not_mem_nil, or_false, not_or] at hne
  have hnumber : startsNumber (d :: (ds ++ c :: cs)) = false := by
    by_cases hdot : d = '.'
    · subst hdot
      obtain rfl | rfl := hpoint rfl
      · have hself : s = "." := by
          rw [← String.toList_inj, hd]
          rfl
        rw [hself, endsSymbol_iff] at hc
        simpa [startsNumber] using mt mem_continuations_of_isDigit hc
      · rfl
    · rw [startsNumber_of_ne hdot, hdigit]
  have hclosing : ¬(d = '\x7d' && hole) = true := by
    rw [Bool.and_eq_true, decide_eq_true_eq]
    rintro ⟨hd, hole⟩
    rw [hhole (hbrace hd)] at hole
    cases hole
  simp only [List.cons_append, lexeme, hne, hnumber, hstart, hclosing]
  exact hsymbol

/-- A lexeme of a type opens no gap, and a comment only if it is one of the brackets of arguments.
-/
theorem spelling_head {l : Lexeme} (hl : l.InTypes) : ∃ d ds, l.spelling = d :: ds ∧
    isGapHead d = false ∧ d ≠ '!' ∧ (d = '<' → l = .symbol "<") := by
  have hpart : ∀ d, isNumeralPart d → d ≠ '!' ∧ (d = '<' → l = .symbol "<") := by
    refine fun d hd => ⟨?_, ?_⟩
    · rintro rfl
      exact absurd hd (by decide)
    · rintro rfl
      exact absurd hd (by decide)
  cases l with
  | word w =>
    obtain ⟨d, ds, hw, hd, -⟩ := hl
    refine ⟨d, ds, hw, Bool.eq_false_iff.2 fun hg => ?_,
      hpart d (isNumeralPart_of_part (isIdentifierPart_of_start hd))⟩
    rw [isIdentifierStart_of_isGapHead d hg] at hd
    cases hd
  | string v => exact ⟨'"', _, rfl, by decide, by decide, fun e => absurd e (by decide)⟩
  | number s | bigint s =>
    obtain ⟨⟨d, ds, hs, hd⟩, hparts⟩ := hl.numeral
    refine ⟨d, ds, hs, Bool.eq_false_iff.2 fun hg => ?_, hpart d (hparts d (by simp [hs]))⟩
    have hpoint := forall_isGapHead (P := (· ≠ '.')) (by decide) d hg
    simp [isNumeralStart, isDigit_of_isGapHead d hg, hpoint] at hd
  | template chunk opens closes sound =>
    cases opens
    · exact ⟨'\x7d', _, rfl, by decide, by decide, fun e => absurd e (by decide)⟩
    · exact ⟨'\x60', _, rfl, by decide, by decide, fun e => absurd e (by decide)⟩
  | symbol s =>
    have hall : ∀ s ∈ typeSymbols, s.toList.head?.any fun d =>
        decide (isGapHead d = false ∧ d ≠ '!' ∧ (d = '<' → s = "<")) := by decide
    have hhead := hall s hl
    rw [spelling_symbol]
    cases hd : s.toList with
    | nil =>
      rw [hd] at hhead
      cases hhead
    | cons d ds =>
      rw [hd] at hhead
      obtain ⟨hgap, hmark, hless⟩ := of_decide_eq_true hhead
      exact ⟨d, ds, rfl, hgap, hmark, fun h => congrArg _ (hless h)⟩
  | _ => exact hl.elim

/-- A lexeme is read from its spelling, in front of a character that it does not go on with, where
it may stand among the brackets. -/
theorem lexeme_spelling {l : Lexeme} (cs : List Char) (hl : l.InTypes) (hc : l.ends c)
    (hv : ∀ v, l = .string v → isPlainText '"' v.toList) {s s' : List Bracket}
    (hs : l.shift s = some s') (previous : Option Lexeme) :
    lexemeBehind previous (bracesOf s) (l.spelling ++ c :: cs) = some (l, c :: cs) := by
  rw [lexemeBehind]
  generalize (previous.map Lexeme.awaitsOperand).getD true = operand
  cases l with
  | word w => exact lexeme_word hl hc
  | string v =>
    rw [spelling_string, List.append_assoc, List.cons_append]
    exact lexeme_string (.inl rfl) (hv v rfl)
  | number n => exact lexeme_number hl hc
  | bigint n => exact lexeme_number hl hc
  | template chunk opens closes sound =>
    rw [spelling_template, List.append_assoc, List.cons_append]
    cases opens with
    | true => exact template_chunk hl
    | false =>
      have hhole : (bracesOf s).head?.getD false = true := by
        rcases s with _ | ⟨b, s⟩
        · cases closes <;> cases hs
        · cases b <;> first | rfl | (cases closes <;> cases hs)
      rw [hhole]
      exact template_chunk hl
  | symbol x =>
    refine lexeme_symbol hl hc ?_
    rintro rfl
    rcases s with _ | ⟨b, s⟩
    · rfl
    · cases b <;> first | rfl | cases hs
  | _ => exact hl.elim

end Lexer

end ApiSurface.Source
