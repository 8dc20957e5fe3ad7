import ApiSurface.Proofs.MemberKeys
import ApiSurface.Proofs.ParameterLists

/-! Members of object types are read back. In the text a comma ends every member but the last, which
a closing brace follows. -/
namespace ApiSurface.Source
open Parse Piece

namespace Grammar

variable {g : Grammar} {ts rest : List Token} {n : Nat} {k : List Token → Prop}
  {e : List Lexeme} {m : Signature}

/-- A member ends here, and so do types in it. -/
structure Ends (e : List Lexeme) (k : List Token → Prop) : Prop where
  reads : Reads endMember e k fun _ => True
  next : Shows e k fun ts => ∃ t us, ts = t :: us ∧ t.lexeme.closes

theorem ends_comma : Ends [.symbol ","] k :=
  ⟨.takes .symbol (.pure trivial), .head fun t ts ht _ => ⟨t, ts, rfl, by rw [ht]; rfl⟩⟩

/-- A statement ends in front of a closing brace. -/
theorem endStatement_reads : Reads endStatement [] (fun ts => Ahead.symbol "\x7d" ts)
    fun _ => True := by
  intro ts rest hts hr
  obtain rfl := laid_nil.1 hts
  obtain ⟨t, us, rfl, ht⟩ := Ahead.symbol_iff.1 hr
  refine ⟨(), trivial, ?_⟩
  simp [endStatement, Ahead.symbol, Ahead.lexeme, Ahead.statementEnd, ht]

theorem ends_brace : Ends [] fun ts => Ahead.symbol "\x7d" ts :=
  ⟨.takes_not (.nil fun ts hts => Ahead.symbol_of_symbol hts (by simp)) endStatement_reads,
    .nil (closes_symbol (by simp))⟩

/-! Signatures with parameters. -/

theorem typeParameters_none {allowed : List String}
    (hk : ∀ ts, k ts → Ahead.symbol "<" ts = false) :
    Reads (g.typeParameters allowed) [] k (· = []) :=
  .takes_not (.nil hk) (.pure rfl)

/-- Parameters with the type of what comes of them. -/
def parametersLexemes (ps : List Parameter) (r : Option TypeTerm) : List Lexeme :=
  .symbol "(" :: (lexemes (commaPieces (parametersPieces ps)) ++ [.symbol ")"]) ++
    .symbol ":" :: lexemes (annotationPieces r)

theorem signed_back (whole : List TypeParameter → List Parameter → Option TypeTerm → Signature)
    (hg : g.Recalls) {ps : List Parameter} {r : Option TypeTerm} {mid : List Token}
    (hps : g.parameters true ts = some (ps, mid)) (hr : g.resultAnnotation mid = some (r, rest))
    (hl : parametersLegible ps ∧ resultLegible r) (hn : (parametersLexemes ps r).length ≤ n)
    (he : Ends e k) :
    Reads ((grammar n).typeParameters ["const"] >>= fun gs => (grammar n).parameters true >>=
      fun ps => Grammar.resultAnnotation (grammar n) >>= fun r => endMember >>= fun _ =>
        Pure.pure (whole gs ps r)) (parametersLexemes ps r ++ e) k
      fun m => ∃ ps' r', m = whole [] ps' r' ∧ erasedParameters ps' = erasedParameters ps ∧
        erasedAnnotated r' = erasedAnnotated r := by
  simp only [parametersLexemes, List.length_append, List.length_cons] at hn
  have hparams := parameters_back (k := fun _ => True) hg hps hl.1 (n := n) (by omega)
  have hresult := resultAnnotation_back (k := fun ts => ∃ t us, ts = t :: us ∧ t.lexeme.closes)
    hg hr hl.2 (fun _ h => h) (n := n) (by omega)
  rw [parametersLexemes, List.append_assoc]
  refine (typeParameters_none fun _ h => h).bind_of_nil (.symbol_ne (by simp)) fun gs hgs => ?_
  subst hgs
  refine hparams.bind (fun _ _ _ _ => trivial) fun ps' hps' => ?_
  refine hresult.bind he.next fun r' hr' => he.reads.bind_nil fun _ _ => .pure ?_
  exact ⟨ps', r', rfl, hps', hr'⟩

/-! What a member opens with. -/

/-- No rule but those of keys and accessors takes a member that stands here. -/
def opensKey : Ahead := fun ts =>
  !opensParameters ts && !((Ahead.word "new").before opensParameters) ts && !opensIndex ts

theorem signature_of_key {ls : List Lexeme} {S : Signature → Prop} (hne : ls ≠ [])
    (ho : Shows ls k fun ts => opensKey ts ∧ Ahead.modifier ["readonly"] ts = false)
    (h : Reads (orElse g.getter (orElse g.setter (g.keyedSignature false))) ls k S) :
    Reads g.signature ls k S := by
  have hkey : ∀ ts, opensKey ts → opensParameters ts = false ∧
      ((Ahead.word "new").before opensParameters) ts = false ∧ opensIndex ts = false := by
    intro ts h
    simpa [opensKey, and_assoc] using h
  exact .offset_of_ne_nil hne fun start => .sees false (ho.mono fun ts h => (hkey ts h.1).1) <|
    .sees false (ho.mono fun ts h => (hkey ts h.1).2.1) <| .takes_not (ho.mono fun _ h => h.2) <|
    .sees false (ho.mono fun ts h => (hkey ts h.1).2.2) h

/-- A word that makes no sort of a member by itself. -/
theorem opensKey_of_word {w : String} {ls : List Lexeme} (hn : w ≠ "new") (hr : w ≠ "readonly") :
    Shows (.word w :: ls) k fun ts => opensKey ts ∧ Ahead.modifier ["readonly"] ts = false :=
  .head fun t ts ht _ => by
    simp [opensKey, opensParameters, opensIndex, Ahead.symbolIn, Ahead.before, Ahead.word,
      Ahead.symbol, Ahead.modifier, Ahead.wordIn, Ahead.wordThat, Ahead.lexeme, ht, hn, hr]

/-- The lexemes of a key, and a symbol that may follow it. -/
theorem opensKey_of_isKey {ls : List Lexeme} {s : String} (hkey : IsKey ls)
    (hs : s ∈ [":", "?", "("]) (hnew : s = "(" → ls ≠ [.word "new"]) (ls' : List Lexeme) :
    Shows (ls ++ .symbol s :: ls') k
      fun ts => opensKey ts ∧ Ahead.modifier ["readonly"] ts = false := by
  obtain ⟨w, rfl⟩ | ⟨v, rfl⟩ | ⟨n, rfl⟩ | ⟨w, v, ws, rfl⟩ := hkey
  · refine .cons (B := fun ts => ∃ t us, ts = t :: us ∧ t.lexeme = .symbol s)
      (.head fun t ts ht _ => ⟨t, ts, rfl, ht⟩) ?_
    rintro t _ ht - ⟨u, us, rfl, hu⟩
    have hparams : w = "new" → s ≠ "(" := by
      rintro rfl rfl
      exact hnew rfl rfl
    simp only [List.mem_cons, List.not_mem_nil, or_false] at hs
    rcases hs with rfl | rfl | rfl <;>
      simp_all [opensKey, opensParameters, opensIndex, Ahead.symbolIn, Ahead.before, Ahead.word,
        Ahead.symbol, Ahead.modifier, Ahead.wordIn, Ahead.wordThat, Ahead.lexeme, Ahead.and,
        Ahead.startsName, Ahead.privateName, Ahead.anyWord, Ahead.string, Ahead.number]
  · exact .head fun t ts ht _ => by
      simp [opensKey, opensParameters, opensIndex, Ahead.symbolIn, Ahead.before, Ahead.word,
        Ahead.symbol, Ahead.modifier, Ahead.wordIn, Ahead.wordThat, Ahead.lexeme, ht]
  · exact .head fun t ts ht _ => by
      simp [opensKey, opensParameters, opensIndex, Ahead.symbolIn, Ahead.before, Ahead.word,
        Ahead.symbol, Ahead.modifier, Ahead.wordIn, Ahead.wordThat, Ahead.lexeme, ht]
  · rw [lexemes_dottedPieces]
    refine .cons (.cons (B := fun ts => Ahead.symbol "." ts) .symbol
      (P := fun ts => Ahead.symbolIn [":", ","] ts.tail = false) fun t ts _ _ hts => ?_)
      fun t ts ht _ hts => ?_
    · obtain ⟨u, us, rfl, hu⟩ := Ahead.symbol_iff.1 hts
      simp [Ahead.symbolIn, Ahead.lexeme, hu]
    · simp [opensKey, opensParameters, opensIndex, Ahead.symbolIn, Ahead.before, Ahead.word,
        Ahead.symbol, Ahead.modifier, Ahead.wordIn, Ahead.wordThat, Ahead.lexeme, ht] at hts ⊢
      exact .inr hts

/-- A modifier in front of what it modifies. -/
theorem modifier_of_head {ls : List Lexeme}
    (h : Shows ls k fun ts => Ahead.sameLine ts ∧ Ahead.startsName ts) :
    Shows (.word "readonly" :: ls) k fun ts =>
      Ahead.modifier ["readonly"] ts ∧ opensParameters ts = false ∧
        ((Ahead.word "new").before opensParameters) ts = false := by
  refine .cons h fun t ts ht _ hts => ?_
  simp [opensParameters, Ahead.symbolIn, Ahead.before, Ahead.word, Ahead.modifier, Ahead.wordIn,
    Ahead.wordThat, Ahead.lexeme, Ahead.and, ht, hts]

/-- Neither accessor is read where the key is read itself. -/
theorem accessors_refuse {ls ls' : List Lexeme} {s : String} (hkey : IsKey ls)
    (hs : s ∈ [":", "?", "("]) : Shows (ls ++ .symbol s :: ls') k
      fun ts => g.getter ts = none ∧ g.setter ts = none := by
  have hrefuses : ∀ {us : List Token} {u : Token}, u.lexeme = .symbol s →
      g.signatureKey (u :: us) = none := by
    intro us u hu
    by_contra hne
    obtain ⟨⟨key, r⟩, h⟩ := Option.ne_none_iff_exists'.1 hne
    rcases takes_ite_eq_some.1 h with ⟨hb, -⟩ | ⟨-, h⟩
    · simp only [Ahead.symbol, Ahead.lexeme, hu, beq_iff_eq, Lexeme.symbol.injEq] at hb
      simp [hb] at hs
    rcases sees_ite_eq_some.1 h with ⟨hw, -⟩ | ⟨-, h⟩
    · simp [Ahead.anyWord, Ahead.wordThat, Ahead.lexeme, hu] at hw
    · obtain ⟨e, mid, he, -⟩ := bind_eq_some.1 h
      obtain ⟨t, e, ht⟩ := simpleKey_eq_some he
      cases e
      simp [hu] at ht
  -- An accessor opens with its word and goes on with a key of its own.
  have hword : ∀ {β : Type} {w : String} {f : Key → Parse β},
      Shows (ls ++ .symbol s :: ls') k fun ts =>
        (Parse.word w >>= fun _ => g.signatureKey >>= f) ts = none := by
    intro β w f ts rest hts _
    by_contra hne
    obtain ⟨r, h⟩ := Option.ne_none_iff_exists'.1 hne
    obtain ⟨t, us, e, ht, h⟩ := word_bind_eq_some.1 h
    obtain ⟨key, mid, hk, -⟩ := bind_eq_some.1 h
    obtain ⟨w, rfl⟩ | ⟨v, rfl⟩ | ⟨n, rfl⟩ | ⟨w, v, ws, rfl⟩ := hkey
    · obtain ⟨_, _, -, hts', rfl⟩ := laid_cons.1 hts
      obtain ⟨u, us', ⟨hu, -⟩, -, rfl⟩ := laid_cons.1 hts'
      cases e
      change g.signatureKey (u :: (us' ++ rest)) = _ at hk
      rw [hrefuses hu] at hk
      cases hk
    all_goals
      obtain ⟨_, _, ⟨ht', -⟩, -, rfl⟩ := laid_cons.1 hts
      cases e
      simp [ht] at ht'
  exact fun ts rest hts hr => ⟨hword hts hr, hword hts hr⟩

theorem IsKey.exists_cons {ls : List Lexeme} (h : IsKey ls) :
    ∃ l ls', ls = l :: ls' ∧ l ≠ .symbol "\x7d" := by
  obtain ⟨w, rfl⟩ | ⟨v, rfl⟩ | ⟨n, rfl⟩ | ⟨w, v, ws, rfl⟩ := h <;> exact ⟨_, _, rfl, by simp⟩

/-- A key stands behind a modifier. -/
theorem IsKey.startsName {ls : List Lexeme} (h : IsKey ls) (ls' : List Lexeme) :
    Shows (ls ++ ls') k fun ts => Ahead.sameLine ts ∧ Ahead.startsName ts := by
  have hhead : ∀ {l : Lexeme} {ls : List Lexeme},
      (∀ t ts, t.lexeme = l → Ahead.startsName (t :: ts)) →
      Shows (l :: ls) k fun ts => Ahead.sameLine ts ∧ Ahead.startsName ts :=
    fun hl => .head fun t ts ht hs => ⟨by simp [Ahead.sameLine, hs], hl t ts ht⟩
  obtain ⟨w, rfl⟩ | ⟨v, rfl⟩ | ⟨n, rfl⟩ | ⟨w, v, ws, rfl⟩ := h <;>
    exact hhead fun t ts ht => by
      simp [Ahead.startsName, Ahead.symbolIn, Ahead.privateName, Ahead.anyWord, Ahead.wordThat,
        Ahead.string, Ahead.number, Ahead.lexeme, ht]

/-! The sorts of members. -/

theorem keyed_reads {S : Signature → Prop} {b : Bool} {ls ls' : List Lexeme} {s : String}
    (hkey : IsKey ls) (hs : s ∈ [":", "?", "("])
    (h : Reads (g.keyedSignature b) (ls ++ .symbol s :: ls') k S) :
    Reads (orElse g.getter (orElse g.setter (g.keyedSignature b))) (ls ++ .symbol s :: ls') k S :=
  .orElse_not ((accessors_refuse hkey hs).mono fun _ h => h.1) <|
    .orElse_not ((accessors_refuse hkey hs).mono fun _ h => h.2) h

theorem callSignature_back (hg : g.Recalls) {start : Nat}
    (h : g.callSignature start ts = some (m, rest)) (hl : m.legible)
    (hn : (lexemes m.pieces).length ≤ n) (he : Ends e k) :
    (∃ ls, lexemes m.pieces = .symbol "(" :: ls) ∧
      Reads (grammar n).signature (lexemes m.pieces ++ e) k (·.erased = m.erased) := by
  obtain ⟨gs, mid, -, h⟩ := bind_eq_some.1 h
  obtain ⟨ps, mid', hps, h⟩ := bind_eq_some.1 h
  obtain ⟨r, mid'', hr, h⟩ := bind_eq_some.1 h
  obtain ⟨_, _, -, h⟩ := bind_eq_some.1 h
  cases h
  have hls : lexemes (Signature.call gs ps r start).pieces = parametersLexemes ps r := by
    simp [Signature.pieces, parametersLexemes]
  rw [hls] at hn ⊢
  rw [Signature.legible, Bool.and_eq_true] at hl
  refine ⟨⟨_, rfl⟩, .offset fun start' => .sees true (.head fun t ts ht _ => ?_) <|
    (signed_back (fun gs ps r => .call gs ps r start') hg hps hr hl hn he).mono
      (fun _ h => h) ?_⟩
  · simp [opensParameters, Ahead.symbolIn, Ahead.lexeme, ht]
  · rintro _ ⟨ps', r', rfl, hps', hr'⟩
    simp [Signature.erased, hps', hr']

theorem constructSignature_back (hg : g.Recalls) {start : Nat}
    (h : g.constructSignature start ts = some (m, rest)) (hl : m.legible)
    (hn : (lexemes m.pieces).length ≤ n) (he : Ends e k) :
    (∃ ls, lexemes m.pieces = .word "new" :: ls) ∧
      Reads (grammar n).signature (lexemes m.pieces ++ e) k (·.erased = m.erased) := by
  obtain ⟨_, _, -, -, h⟩ := word_bind_eq_some.1 h
  obtain ⟨gs, mid, -, h⟩ := bind_eq_some.1 h
  obtain ⟨ps, mid', hps, h⟩ := bind_eq_some.1 h
  obtain ⟨r, mid'', hr, h⟩ := bind_eq_some.1 h
  obtain ⟨_, _, -, h⟩ := bind_eq_some.1 h
  cases h
  have hls : lexemes (Signature.construct gs ps r start).pieces =
      .word "new" :: parametersLexemes ps r := by
    simp [Signature.pieces, parametersLexemes]
  rw [hls] at hn ⊢
  rw [Signature.legible, Bool.and_eq_true] at hl
  refine ⟨⟨_, rfl⟩, .offset fun start' => .sees false (.head fun t ts ht _ => ?_) <|
    .sees true (.cons (B := fun ts => opensParameters ts) (.head fun t ts ht _ => ?_)
      fun t ts ht _ hts => ?_) <| .word <|
    (signed_back (fun gs ps r => .construct gs ps r start') hg hps hr hl
      (Nat.le_of_succ_le hn) he).mono (fun _ h => h) ?_⟩
  · simp [opensParameters, Ahead.symbolIn, Ahead.lexeme, ht]
  · simp [opensParameters, Ahead.symbolIn, Ahead.lexeme, ht]
  · simp [Ahead.before, Ahead.word, Ahead.lexeme, ht, hts]
  · rintro _ ⟨ps', r', rfl, hps', hr'⟩
    simp [Signature.erased, hps', hr']

/-- The front of a member that may be read only. -/
def readonlyLexemes (b : Bool) : List Lexeme := if b then [.word "readonly"] else []

theorem lexemes_index (readonly : Bool) (name : String) (keys : TypeTerm) (t? : Option TypeTerm)
    (start : Nat) : lexemes (Signature.index readonly name keys t? start).pieces =
      readonlyLexemes readonly ++ .symbol "[" :: .word name :: .symbol ":" ::
        (lexemes keys.pieces ++ .symbol "]" :: .symbol ":" :: lexemes (annotationPieces t?)) := by
  cases readonly <;> simp [Signature.pieces, readonlyLexemes]

theorem index_reads (hg : g.Recalls) {name : String} {keys : TypeTerm} {t? : Option TypeTerm}
    (h : g.index ts = some ((name, keys, t?), rest)) (hl : keys.legible ∧ optionLegible t?)
    (hk : Closes k)
    (hn : (lexemes keys.pieces).length < n ∧ (lexemes (annotationPieces t?)).length < n) :
    Reads (grammar n).index (.symbol "[" :: .word name :: .symbol ":" ::
        (lexemes keys.pieces ++ .symbol "]" :: .symbol ":" :: lexemes (annotationPieces t?))) k
      fun read => read.1 = name ∧ read.2.1.erased = keys.erased ∧
        erasedAnnotated read.2.2 = erasedAnnotated t? := by
  obtain ⟨_, _, -, -, h⟩ := symbol_bind_eq_some.1 h
  obtain ⟨name', mid, -, h⟩ := bind_eq_some.1 h
  obtain ⟨_, _, -, -, h⟩ := symbol_bind_eq_some.1 h
  obtain ⟨keys', mid', hkeys, h⟩ := bind_eq_some.1 h
  obtain ⟨_, _, -, -, h⟩ := symbol_bind_eq_some.1 h
  obtain ⟨t?', mid'', ht, h⟩ := bind_eq_some.1 h
  cases h
  refine .symbol <| .anyWord <| .symbol <| ((hg.type _ hkeys hl.1).type_closed hn.1
    (closes_symbol (s := "]") (by simp))).bind .symbol fun keys' hkeys' => .symbol <|
    (annotation_back hg ht hl.2 hk hn.2).bind_pure fun t?' ht' => ⟨rfl, hkeys', ht'⟩

theorem index_back (hg : g.Recalls) {readonly : Bool} {start : Nat} {name : String}
    {keys : TypeTerm} {t? : Option TypeTerm} (ho : opensIndex ts)
    (h : g.index ts = some ((name, keys, t?), rest))
    (hl : (Signature.index readonly name keys t? start).legible)
    (hn : (lexemes (Signature.index readonly name keys t? start).pieces).length ≤ n)
    (he : Ends e k) :
    (∃ l ls, lexemes (Signature.index readonly name keys t? start).pieces = l :: ls ∧
        l ≠ .symbol "\x7d") ∧
      Reads (grammar n).signature
        (lexemes (Signature.index readonly name keys t? start).pieces ++ e) k
        (·.erased = (Signature.index readonly name keys t? start).erased) := by
  rw [lexemes_index] at hn ⊢
  simp only [List.length_append, List.length_cons] at hn
  rw [Signature.legible, Bool.and_eq_true] at hl
  have hname : isReference name := by
    obtain ⟨_, us, rfl, -, h₁⟩ := symbol_bind_eq_some.1 h
    obtain ⟨name', mid, hw, h₂⟩ := bind_eq_some.1 h₁
    obtain ⟨t, rfl, ht, -⟩ := wordThat_eq_some.1 hw
    obtain ⟨_, _, -, -, h₃⟩ := symbol_bind_eq_some.1 h₂
    obtain ⟨_, _, -, h₄⟩ := bind_eq_some.1 h₃
    obtain ⟨_, _, -, -, h₅⟩ := symbol_bind_eq_some.1 h₄
    obtain ⟨_, _, -, h₆⟩ := bind_eq_some.1 h₅
    cases h₆
    simp only [opensIndex, Ahead.before, Ahead.reference, Ahead.wordThat, Ahead.lexeme,
      List.tail_cons, ht, Bool.and_eq_true] at ho
    exact ho.2.1
  have hindex : Shows (.symbol "[" :: .word name :: .symbol ":" :: (lexemes keys.pieces ++
      .symbol "]" :: .symbol ":" :: lexemes (annotationPieces t?)) ++ e) k
      fun ts => opensIndex ts := by
    refine .cons (.cons (.symbol (s := ":")) (P := fun ts =>
      (Ahead.reference.before (Ahead.symbolIn [":", ","])) ts) fun t ts ht _ hts => ?_)
      fun t ts ht _ hts => ?_
    · obtain ⟨u, us, rfl, hu⟩ := Ahead.symbol_iff.1 hts
      simp [Ahead.before, Ahead.reference, Ahead.wordThat, Ahead.symbolIn, Ahead.lexeme, ht, hu,
        hname]
    · simp only [opensIndex, Ahead.before, Ahead.symbol, Ahead.lexeme, ht, beq_self_eq_true,
        List.tail_cons, Bool.true_and] at hts ⊢
      exact hts
  have hread : ∀ start', Reads ((grammar n).index >>= fun read =>
      endMember >>= fun _ =>
        Pure.pure (Signature.index readonly read.1 read.2.1 read.2.2 start'))
      (.symbol "[" :: .word name :: .symbol ":" :: (lexemes keys.pieces ++
        .symbol "]" :: .symbol ":" :: lexemes (annotationPieces t?)) ++ e) k
      (·.erased = (Signature.index readonly name keys t? start).erased) := by
    intro start'
    refine (index_reads (n := n) hg h hl (fun _ h => h) (by omega)).bind he.next ?_
    rintro ⟨name', keys', t?'⟩ ⟨rfl, hkeys, ht⟩
    exact he.reads.bind_nil fun _ _ => .pure (by simp [Signature.erased, hkeys, ht])
  have hnot : ∀ {l : Lexeme} {ls : List Lexeme}, l = .symbol "[" ∨ l = .word "readonly" →
      Shows (l :: ls) k fun ts => opensParameters ts = false ∧
        ((Ahead.word "new").before opensParameters) ts = false := by
    rintro l ls (rfl | rfl) <;>
      exact .head fun t ts ht _ => by
        simp [opensParameters, Ahead.symbolIn, Ahead.before, Ahead.word, Ahead.lexeme, ht]
  cases readonly with
  | false =>
    refine ⟨⟨_, _, rfl, by simp⟩, .offset fun start' =>
      .sees false ((hnot (.inl rfl)).mono fun _ h => h.1) <|
      .sees false ((hnot (.inl rfl)).mono fun _ h => h.2) <| .takes_not ?_ <|
      .sees true hindex (hread start')⟩
    exact .head fun t ts ht _ => by
      simp [Ahead.modifier, Ahead.before, Ahead.wordIn, Ahead.wordThat, Ahead.lexeme, ht]
  | true =>
    refine ⟨⟨_, _, rfl, by simp⟩, .offset fun start' =>
      .sees false ((hnot (.inr rfl)).mono fun _ h => h.1) <|
      .sees false ((hnot (.inr rfl)).mono fun _ h => h.2) <|
      .takes ((modifier_of_head ?_).mono fun _ h => h.1) <| .sees true hindex (hread start')⟩
    exact .head fun t ts ht hs => by
      simp [Ahead.sameLine, Ahead.startsName, Ahead.symbolIn, Ahead.lexeme, ht, hs]

/-- The mark of a member that may be missing. -/
def markedLexemes (b : Bool) : List Lexeme := if b then [.symbol "?"] else []

theorem markedLexemes_append (b : Bool) (s : String) (ls : List Lexeme) :
    ∃ s' ls', markedLexemes b ++ .symbol s :: ls = .symbol s' :: ls' ∧
      (s' = "?" ∨ b = false ∧ s' = s) := by
  cases b
  · exact ⟨s, ls, rfl, .inr ⟨rfl, rfl⟩⟩
  · exact ⟨"?", .symbol s :: ls, rfl, .inl rfl⟩

theorem marked_reads {α : Type} {f : Bool → Parse α} {S : α → Prop} {s : String} {ls : List Lexeme}
    (b : Bool) (hs : s ≠ "?") (h : Reads (f b) (.symbol s :: ls) k S) :
    Reads (takesSymbol "?" >>= f) (markedLexemes b ++ .symbol s :: ls) k S := by
  cases b
  · exact .takes_not (.symbol_ne hs) h
  · exact .takes .symbol h

/-- A key in front of a mark or of what a member goes on with. -/
theorem shows_marked {b : Bool} {s : String} {ls : List Lexeme} (hs : s ∈ [":", "("]) :
    Shows (markedLexemes b ++ .symbol s :: ls) k
      fun ts => Ahead.symbol "." ts = false ∧ Ahead.symbol "[" ts = false := by
  obtain ⟨s', ls', e, hs'⟩ := markedLexemes_append b s ls
  rw [e]
  simp only [List.mem_cons, List.not_mem_nil, or_false] at hs
  obtain rfl | ⟨-, rfl⟩ := hs'
  · exact fun _ _ hts hr => ⟨Shows.symbol_ne (by simp) hts hr, Shows.symbol_ne (by simp) hts hr⟩
  · rcases hs with rfl | rfl <;>
      exact fun _ _ hts hr => ⟨Shows.symbol_ne (by simp) hts hr, Shows.symbol_ne (by simp) hts hr⟩

theorem property_reads (hg : g.Recalls) {key : Key} {t? : Option TypeTerm} {mid us : List Token}
    (hkey : g.signatureKey us = some (key, mid))
    (ht : g.annotation true ts = some (t?, rest)) (hl : key.named ∧ optionLegible t?)
    (hn : (lexemes (annotationPieces t?)).length < n) (he : Ends e k) (readonly isOptional : Bool) :
    Reads ((grammar n).keyedSignature readonly) (lexemes key.value.keyPieces ++
      (markedLexemes isOptional ++ .symbol ":" :: (lexemes (annotationPieces t?) ++ e))) k
      (·.erased = (Signature.property readonly key isOptional t?).erased) := by
  refine (signatureKey_back hg hkey hl.1 (by omega) fun _ h => h).bind (shows_marked (by simp))
    fun key' hkey' => marked_reads isOptional (by simp) ?_
  refine .sees false (.head fun t ts ht _ => ?_) ?_
  · simp [opensParameters, Ahead.symbolIn, Ahead.lexeme, ht]
  rw [← List.cons_append]
  refine (annotation_back hg ht hl.2 (fun _ h => h) hn).bind he.next fun t?' ht' =>
    he.reads.bind_nil fun _ _ => .pure ?_
  simp [Signature.erased, hkey', ht']

theorem method_reads (hg : g.Recalls) {key : Key} {ps : List Parameter} {r : Option TypeTerm}
    {mid us vs : List Token} (hkey : g.signatureKey us = some (key, mid))
    (hps : g.parameters true ts = some (ps, vs)) (hr : g.resultAnnotation vs = some (r, rest))
    (hl : key.named ∧ parametersLegible ps ∧ resultLegible r)
    (hn : (parametersLexemes ps r).length ≤ n) (he : Ends e k) (isOptional : Bool)
    (gs : List TypeParameter) : Reads ((grammar n).keyedSignature false)
      (lexemes key.value.keyPieces ++ (markedLexemes isOptional ++ (parametersLexemes ps r ++ e))) k
      (·.erased = (Signature.method key isOptional gs ps r).erased) := by
  refine (signatureKey_back hg hkey hl.1 ?_ fun _ h => h).bind (shows_marked (by simp))
    fun key' hkey' => marked_reads isOptional (by simp) ?_
  · exact Nat.lt_of_lt_of_le (by simp [parametersLexemes]) hn
  refine .sees true (.head fun t ts ht _ => ?_) <| .require rfl <|
    (signed_back (fun gs ps r => .method key' isOptional gs ps r) hg hps hr hl.2 hn he).mono
      (fun _ h => h) ?_
  · simp [opensParameters, Ahead.symbolIn, Ahead.lexeme, ht]
  · rintro _ ⟨ps', r', rfl, hps', hr'⟩
    simp [Signature.erased, hkey', hps', hr']

/-- A member with a key of its own, in front of a mark or of what it goes on with. -/
theorem signature_of_keyed {S : Signature → Prop} {ls ls' : List Lexeme} {s : String}
    {isOptional : Bool} (hkey : IsKey ls) (hs : s ∈ [":", "("])
    (hnew : s = "(" → isOptional = false → ls ≠ [.word "new"])
    (h : Reads (g.keyedSignature false) (ls ++ (markedLexemes isOptional ++ .symbol s :: ls'))
      k S) :
    Reads g.signature (ls ++ (markedLexemes isOptional ++ .symbol s :: ls')) k S := by
  obtain ⟨s', ls'', e, hs'⟩ := markedLexemes_append isOptional s ls'
  rw [e] at h ⊢
  have hmem : s' ∈ [":", "?", "("] := by
    simp only [List.mem_cons, List.not_mem_nil, or_false] at hs ⊢
    obtain rfl | ⟨-, rfl⟩ := hs'
    · simp
    · tauto
  refine signature_of_key (by simp) (opensKey_of_isKey hkey hmem ?_ _) (keyed_reads hkey hmem h)
  rintro rfl
  obtain e | ⟨ho, e⟩ := hs'
  · simp at e
  · exact hnew e.symm ho

theorem lexemes_property (readonly : Bool) (key : Key) (isOptional : Bool) (t? : Option TypeTerm) :
    lexemes (Signature.property readonly key isOptional t?).pieces =
      readonlyLexemes readonly ++ (lexemes key.value.keyPieces ++
        (markedLexemes isOptional ++ .symbol ":" :: lexemes (annotationPieces t?))) := by
  cases readonly <;> cases isOptional <;> simp [Signature.pieces, readonlyLexemes, markedLexemes]

theorem property_back (hg : g.Recalls) {key : Key} {t? : Option TypeTerm} {mid us : List Token}
    {readonly isOptional : Bool} (hkey : g.signatureKey us = some (key, mid))
    (ht : g.annotation true ts = some (t?, rest))
    (hl : (Signature.property readonly key isOptional t?).legible)
    (hn : (lexemes (Signature.property readonly key isOptional t?).pieces).length ≤ n)
    (he : Ends e k) :
    (∃ l ls, lexemes (Signature.property readonly key isOptional t?).pieces = l :: ls ∧
        l ≠ .symbol "\x7d") ∧
      Reads (grammar n).signature
        (lexemes (Signature.property readonly key isOptional t?).pieces ++ e) k
        (·.erased = (Signature.property readonly key isOptional t?).erased) := by
  rw [lexemes_property] at hn ⊢
  simp only [List.length_append, List.length_cons] at hn
  rw [Signature.legible, Bool.and_eq_true] at hl
  have hread := property_reads (n := n) hg hkey ht hl (by omega) he readonly isOptional
  have hisKey := isKey_of_named hl.1
  cases readonly with
  | false =>
    refine ⟨?_, ?_⟩
    · obtain ⟨l, ls, e, hne⟩ := hisKey.exists_cons
      exact ⟨l, _, by rw [readonlyLexemes, e]; rfl, hne⟩
    · simpa [readonlyLexemes] using signature_of_keyed hisKey (by simp) (by simp) hread
  | true =>
    refine ⟨⟨_, _, rfl, by simp⟩, ?_⟩
    obtain ⟨s', ls', e, hs'⟩ := markedLexemes_append isOptional ":"
      (lexemes (annotationPieces t?) ++ e)
    have hmem : s' ∈ [":", "?", "("] := by
      obtain rfl | ⟨-, rfl⟩ := hs' <;> simp
    rw [e] at hread
    have hnew : s' ≠ "(" := by
      obtain rfl | ⟨-, rfl⟩ := hs' <;> simp
    have hhead := opensKey_of_isKey (k := k) hisKey hmem (absurd · hnew) ls'
    simp only [readonlyLexemes, if_pos, List.append_assoc, List.cons_append, List.nil_append, e]
    have hmod := modifier_of_head (hisKey.startsName (k := k) (.symbol s' :: ls'))
    refine .offset fun start => .sees false (hmod.mono fun _ h => h.2.1) <|
      .sees false (hmod.mono fun _ h => h.2.2) <| .takes (hmod.mono fun _ h => h.1) <|
      .sees false (hhead.mono fun ts h => ?_) (keyed_reads hisKey hmem hread)
    have := h.1
    simp only [opensKey, Bool.and_eq_true, Bool.not_eq_true'] at this
    exact this.2

theorem lexemes_method (key : Key) (isOptional : Bool) (gs : List TypeParameter)
    (ps : List Parameter) (r : Option TypeTerm) :
    lexemes (Signature.method key isOptional gs ps r).pieces =
      lexemes key.value.keyPieces ++ (markedLexemes isOptional ++ parametersLexemes ps r) := by
  cases isOptional <;> simp [Signature.pieces, markedLexemes, parametersLexemes]

theorem method_back (hg : g.Recalls) {key : Key} {gs : List TypeParameter} {ps : List Parameter}
    {r : Option TypeTerm} {mid us vs : List Token} {isOptional : Bool}
    (hkey : g.signatureKey us = some (key, mid)) (hps : g.parameters true ts = some (ps, vs))
    (hr : g.resultAnnotation vs = some (r, rest))
    (hnew : isOptional = false → mid = us.tail → Ahead.word "new" us = false)
    (hl : (Signature.method key isOptional gs ps r).legible)
    (hn : (lexemes (Signature.method key isOptional gs ps r).pieces).length ≤ n) (he : Ends e k) :
    (∃ l ls, lexemes (Signature.method key isOptional gs ps r).pieces = l :: ls ∧
        l ≠ .symbol "\x7d") ∧
      Reads (grammar n).signature
        (lexemes (Signature.method key isOptional gs ps r).pieces ++ e) k
        (·.erased = (Signature.method key isOptional gs ps r).erased) := by
  rw [lexemes_method] at hn ⊢
  simp only [List.length_append] at hn
  simp only [Signature.legible, Bool.and_eq_true, and_assoc] at hl
  have hread := method_reads (n := n) hg hkey hps hr hl (by omega) he isOptional gs
  have hisKey := isKey_of_named hl.1
  refine ⟨?_, ?_⟩
  · obtain ⟨l, ls, e, hne⟩ := hisKey.exists_cons
    exact ⟨l, _, by rw [e]; rfl, hne⟩
  · rw [List.append_assoc, List.append_assoc]
    refine signature_of_keyed hisKey (s := "(") (by simp) (fun _ ho hkeyls => ?_) hread
    -- A member named `new` would open a constructor.
    obtain ⟨w, o, hw, hword, hmid⟩ | hdeclared := signatureKey_eq_some hg hkey
    · rw [hw] at hkeyls
      cases hkeyls
      rw [hnew ho hmid] at hword
      cases hword
    · obtain ⟨w, o, hw⟩ | ⟨v, o, hv⟩ | ⟨s, o, hs⟩ | ⟨e', p, w, v, ws, hm, hp⟩ := named_cases hl.1
      · rw [hw] at hkeyls hdeclared
        cases hkeyls
        have := (hdeclared "new" [] rfl).1
        simp [isReference, reservedWords] at this
      · rw [hv] at hkeyls
        cases hkeyls
      · rw [hs] at hkeyls
        cases hkeyls
      · rw [hm] at hp hkeyls
        rw [lexemes_keyPieces hp] at hkeyls
        cases hkeyls

theorem getter_back (hg : g.Recalls) (h : g.getter ts = some (m, rest)) (hl : m.legible)
    (hn : (lexemes m.pieces).length ≤ n) (he : Ends e k) :
    (∃ ls, lexemes m.pieces = .word "get" :: ls) ∧
      Reads (grammar n).signature (lexemes m.pieces ++ e) k (·.erased = m.erased) := by
  obtain ⟨_, us, -, -, h⟩ := word_bind_eq_some.1 h
  obtain ⟨key, mid, hkey, h⟩ := bind_eq_some.1 h
  obtain ⟨_, _, -, -, h⟩ := symbol_bind_eq_some.1 h
  obtain ⟨_, _, -, -, h⟩ := symbol_bind_eq_some.1 h
  obtain ⟨t?, _, ht, h⟩ := bind_eq_some.1 h
  obtain ⟨_, _, -, h⟩ := bind_eq_some.1 h
  cases h
  have hls : lexemes (Signature.getter key t?).pieces = .word "get" ::
      (lexemes key.value.keyPieces ++ .symbol "(" :: .symbol ")" :: .symbol ":" ::
        lexemes (annotationPieces t?)) := by
    simp [Signature.pieces]
  rw [hls] at hn ⊢
  simp only [List.length_append, List.length_cons] at hn
  rw [Signature.legible, Bool.and_eq_true] at hl
  rw [List.cons_append, List.append_assoc]
  refine ⟨⟨_, rfl⟩, signature_of_key nofun (opensKey_of_word (by simp) (by simp)) <|
    .orElse <| .word ?_⟩
  refine (signatureKey_back hg hkey hl.1 (n := n) (by omega) fun _ h => h).bind
    (.head fun t ts ht _ => by simp [Ahead.symbol, Ahead.lexeme, ht]) fun key' hkey' =>
    .symbol <| .symbol ?_
  refine (annotation_back (n := n) hg ht hl.2 (fun _ h => h) (by omega)).bind he.next
    fun t?' ht' => he.reads.bind_nil fun _ _ => .pure ?_
  simp [Signature.erased, hkey', ht']

/-- The first of some parameters stands alone in the text. -/
theorem first_parameter_back (hg : g.Recalls) {c : Bool} {p : Parameter} {ps : List Parameter}
    (h : g.parameters c ts = some (p :: ps, rest)) (hl : p.legible)
    (hn : (lexemes p.pieces).length < n) :
    Reads ((grammar n).parameters c) (.symbol "(" :: (lexemes p.pieces ++ [.symbol ")"])) k
      (∃ q, q.erased = p.erased ∧ · = [q]) := by
  obtain ⟨_, us, -, -, h⟩ := symbol_bind_eq_some.1 h
  obtain e | ⟨mid, hparted, -⟩ := commaList_parted h
  · cases e
  obtain ⟨ts, mid, hread⟩ := hparted.forall p (by simp)
  obtain ⟨hne, hback⟩ := parameter_back (k := fun ts => Ahead.symbol ")" ts) hg hread hl
    (fun ts hts => .inl hts) hn
  have heach : ReadsEach ((grammar n).parameter c false) (fun p : Parameter => lexemes p.pieces)
      (fun ts => Ahead.symbol ")" ts) (fun ts => Ahead.symbol "," ts)
      (fun p q => q.erased = p.erased) [p] := ⟨hback, trivial⟩
  have hlist := heach.commaList (k := k) (by simp) (by simpa using hne)
  rw [List.map_singleton, List.intercalate_singleton] at hlist
  refine .symbol (hlist.mono (fun _ h => h) fun qs hqs => ?_)
  cases hqs with
  | cons hq hqs =>
    cases hqs
    exact ⟨_, hq, rfl⟩

theorem setter_back (hg : g.Recalls) (h : g.setter ts = some (m, rest)) (hl : m.legible)
    (hn : (lexemes m.pieces).length ≤ n) (he : Ends e k) :
    (∃ ls, lexemes m.pieces = .word "set" :: ls) ∧
      Reads (grammar n).signature (lexemes m.pieces ++ e) k (·.erased = m.erased) := by
  obtain ⟨_, us, -, -, h⟩ := word_bind_eq_some.1 h
  obtain ⟨key, mid, hkey, h⟩ := bind_eq_some.1 h
  obtain ⟨ps, mid', hps, h⟩ := bind_eq_some.1 h
  obtain _ | ⟨p, ps⟩ := ps
  · cases h
  obtain ⟨_, _, -, h⟩ := bind_eq_some.1 h
  cases h
  have hls : lexemes (Signature.setter key p).pieces = .word "set" ::
      (lexemes key.value.keyPieces ++ .symbol "(" :: (lexemes p.pieces ++ [.symbol ")"])) := by
    simp [Signature.pieces]
  rw [hls] at hn ⊢
  simp only [List.length_append, List.length_cons] at hn
  rw [Signature.legible, Bool.and_eq_true] at hl
  rw [List.cons_append, List.append_assoc]
  refine ⟨⟨_, rfl⟩, signature_of_key nofun (opensKey_of_word (by simp) (by simp)) <|
    .orElse_not ?_ <| .orElse <| .word ?_⟩
  · refine .head fun t ts ht _ => ?_
    by_contra hne
    obtain ⟨r, h⟩ := Option.ne_none_iff_exists'.1 hne
    obtain ⟨_, _, e, ht', -⟩ := word_bind_eq_some.1 h
    cases e
    simp [ht] at ht'
  refine (signatureKey_back hg hkey hl.1 (n := n) (by omega) fun _ h => h).bind
    (.head fun t ts ht _ => by simp [Ahead.symbol, Ahead.lexeme, ht]) fun key' hkey' => ?_
  rw [← List.cons_append]
  refine (first_parameter_back (k := fun _ => True) hg hps hl.2 (n := n) (by omega)).bind
    (fun _ _ _ _ => trivial) ?_
  rintro _ ⟨q, hq, rfl⟩
  exact he.reads.bind_nil fun _ _ => .pure (by simp [Signature.erased, hkey', hq])

theorem of_takes_false {p : Ahead} {b : Bool} (h : takes p ts = some (b, rest)) (hb : b = false) :
    p ts = false ∧ rest = ts := by
  unfold takes at h
  split at h <;> simp_all

theorem orElse_eq_some {α : Type} {p q : Parse α} {r : α × List Token} :
    orElse p q ts = some r ↔ p ts = some r ∨ p ts = none ∧ q ts = some r := by
  unfold orElse
  split <;> simp [*]

theorem signature_back (hg : g.Recalls) (h : g.signature ts = some (m, rest)) (hl : m.legible)
    (hn : (lexemes m.pieces).length ≤ n) (he : Ends e k) :
    (∃ l ls, lexemes m.pieces = l :: ls ∧ l ≠ .symbol "\x7d") ∧
      Reads (grammar n).signature (lexemes m.pieces ++ e) k (·.erased = m.erased) := by
  obtain ⟨start, us, -, h⟩ := bind_eq_some.1 h
  rcases sees_ite_eq_some.1 h with ⟨-, h⟩ | ⟨-, h⟩
  · obtain ⟨⟨ls, hls⟩, hr⟩ := callSignature_back hg h hl hn he
    exact ⟨⟨_, ls, hls, by simp⟩, hr⟩
  rcases sees_ite_eq_some.1 h with ⟨-, h⟩ | ⟨hnew, h⟩
  · obtain ⟨⟨ls, hls⟩, hr⟩ := constructSignature_back hg h hl hn he
    exact ⟨⟨_, ls, hls, by simp⟩, hr⟩
  obtain ⟨readonly, vs, htakes, h⟩ := bind_eq_some.1 h
  rcases sees_ite_eq_some.1 h with ⟨ho, h⟩ | ⟨-, h⟩
  · obtain ⟨⟨name, keys, t?⟩, mid, hindex, h⟩ := bind_eq_some.1 h
    obtain ⟨_, _, -, h⟩ := bind_eq_some.1 h
    cases h
    exact index_back hg ho hindex hl hn he
  rcases orElse_eq_some.1 h with h | ⟨-, h⟩
  · obtain ⟨⟨ls, hls⟩, hr⟩ := getter_back hg h hl hn he
    exact ⟨⟨_, ls, hls, by simp⟩, hr⟩
  rcases orElse_eq_some.1 h with h | ⟨-, h⟩
  · obtain ⟨⟨ls, hls⟩, hr⟩ := setter_back hg h hl hn he
    exact ⟨⟨_, ls, hls, by simp⟩, hr⟩
  obtain ⟨key, mid, hkey, h⟩ := bind_eq_some.1 h
  obtain ⟨isOptional, mid', hmark, h⟩ := bind_eq_some.1 h
  rcases sees_ite_eq_some.1 h with ⟨hparams, h⟩ | ⟨-, h⟩
  · rw [require_bind] at h
    split at h
    case isFalse => cases h
    case isTrue hreadonly =>
    obtain ⟨gs, _, -, h⟩ := bind_eq_some.1 h
    obtain ⟨ps, _, hps, h⟩ := bind_eq_some.1 h
    obtain ⟨r, _, hr, h⟩ := bind_eq_some.1 h
    obtain ⟨_, _, -, h⟩ := bind_eq_some.1 h
    cases h
    refine method_back hg hkey hps hr (fun ho hmid => ?_) hl hn he
    obtain ⟨-, rfl⟩ := of_takes_false htakes (by simpa using hreadonly)
    obtain ⟨-, rfl⟩ := of_takes_false hmark ho
    rw [hmid] at hparams
    simpa [Ahead.before, hparams] using hnew
  · obtain ⟨t?, _, ht, h⟩ := bind_eq_some.1 h
    obtain ⟨_, _, -, h⟩ := bind_eq_some.1 h
    cases h
    exact property_back hg hkey ht hl hn he

/-! All members. -/

theorem signatures_back (hg : g.Recalls) {ms : List Signature}
    (h : g.signatures ts = some (ms, rest)) (hl : signaturesLegible ms)
    (hn : (lexemes (commaPieces (signaturesPieces ms))).length ≤ n) :
    Reads (grammar n).signatures
      (.symbol "\x7b" :: (lexemes (commaPieces (signaturesPieces ms)) ++ [.symbol "\x7d"])) k
      (fun ms' => erasedSignatures ms' = erasedSignatures ms) := by
  obtain ⟨_, us, -, -, h⟩ := symbol_bind_eq_some.1 h
  obtain ⟨ms', mid, hms, h⟩ := bind_eq_some.1 h
  obtain ⟨_, _, -, -, h⟩ := symbol_bind_eq_some.1 h
  cases h
  rw [signaturesPieces_eq_map, lexemes_commaPieces_map] at hn ⊢
  have hback : ∀ m ∈ ms, ∀ {e : List Lexeme} {k : List Token → Prop}, Ends e k →
      (∃ l ls, lexemes m.pieces = l :: ls ∧ l ≠ .symbol "\x7d") ∧
        Reads (grammar n).signature (lexemes m.pieces ++ e) k (·.erased = m.erased) := by
    intro m hm e k he
    obtain ⟨us, vs, hread⟩ := (repeats_of_during hms).forall m hm
    exact signature_back hg hread (signaturesLegible_iff.1 hl m hm) (Nat.le_trans
      (length_le_intercalate _
        (List.mem_map_of_mem (f := fun m : Signature => lexemes m.pieces) hm)) hn) he
  have hlisted : ∀ ms' : List Signature, (∀ m ∈ ms', m ∈ ms) → ReadsListed (grammar n).signature
      (fun m : Signature => lexemes m.pieces) (fun ts => Ahead.symbol "\x7d" ts)
      (fun m m' => m'.erased = m.erased) ms' := by
    intro ms' hsub
    induction ms' with
    | nil => trivial
    | cons m ms' ih =>
      have hm := hsub m (by simp)
      cases ms' with
      | nil =>
        have := (hback m hm ends_brace).2
        rwa [List.append_nil] at this
      | cons m' ms' => exact ⟨(hback m hm ends_comma).2, ih fun m hm => hsub m (by simp [hm])⟩
  refine .symbol (((hlisted ms fun _ h => h).during fun m hm => (hback m hm ends_brace).1).bind
    .symbol fun ms' hms' => .symbol (.pure ?_))
  rw [erasedSignatures_eq_map, erasedSignatures_eq_map, map_eq_of_forall₂ hms']

end Grammar
end ApiSurface.Source
