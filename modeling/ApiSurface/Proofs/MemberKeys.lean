import ApiSurface.Proofs.NamedTypes

/-! Keys of members are read back: words, strings and numbers as they stand, and chains of names in
square brackets. A chain that was read starts at a name that may be declared, so that the grammar of
expressions reads it as a chain again. -/
namespace ApiSurface.Source
open Parse Piece

/-! What chains of names start at. -/

namespace Expression

theorem declared_of_path?_eq_none {e : Expression} (h : e.path? = none) : e.Declared := by
  intro w ws e
  rw [h] at e
  cases e

theorem Declared.member {e : Expression} (h : e.Declared) (p : Option String) :
    (member e p).Declared := by
  cases p with
  | none => exact declared_of_path?_eq_none rfl
  | some p =>
    intro w ws hp
    obtain ⟨_, _, e, -⟩ | ⟨e', p', path', e, hp', hne, hpath⟩ := path?_cases hp
    · cases e
    cases e
    obtain ⟨w', ws', rfl⟩ := List.exists_cons_of_ne_nil hne
    cases hpath
    exact h w ws' hp'

end Expression

namespace Grammar

variable {g : Grammar}

/-- An operand of which no chain of names can be told. -/
theorem yields_other {start : Nat} {t : Target} {b : Bool} :
    Yields (pure ⟨.other start, t, b⟩) fun o : Operand => o.expression.Declared :=
  .pure (Expression.declared_of_path?_eq_none rfl)

theorem namedExpression_yields :
    Yields g.namedExpression fun o => o.expression.Declared := by
  refine .bind fun start => .bind fun _ => .ite (.bind fun _ => yields_other) ?_
  refine .bind fun _ => .ite (.bind fun _ => yields_other) ?_
  refine .bind fun _ => .ite (.pure (Expression.declared_of_path?_eq_none rfl)) ?_
  refine .bind fun _ => .ite yields_other ?_
  refine .bind fun _ => .ite yields_other ?_
  refine .bind fun _ => .bind fun _ => ?_
  have hword : Yields (wordThat isReference) fun w => isReference w := by
    intro ts w rest h
    obtain ⟨_, -, -, hw⟩ := wordThat_eq_some.1 h
    exact hw
  refine hword.bind_of fun w hw => ?_
  intro ts o rest h
  rw [require_bind] at h
  split at h
  · next hs =>
    cases h
    rintro _ _ e
    cases e
    exact ⟨hw, by simpa using hs⟩
  · cases h

theorem bracketedExpression_yields :
    Yields g.bracketedExpression fun o => o.expression.Declared := by
  have hwhole : ∀ {start : Nat} {p : Parse (List Part)},
      Yields (Part.whole start <$> p) fun o => o.expression.Declared := by
    intro start p
    refine .map fun _ _ _ _ => ?_
    exact Expression.declared_of_path?_eq_none rfl
  refine .bind fun start => .bind fun _ => .ite hwhole (.bind fun _ => .ite hwhole ?_)
  refine .bind fun _ => .ite (.bind fun _ => .bind fun _ => yields_other) ?_
  refine .bind fun _ => .bind fun _ => .bind fun os => .bind fun _ => .bind fun _ => ?_
  split
  · exact yields_other
  · exact yields_other

theorem literal_yields : Yields literal fun o => o.expression.Declared := by
  refine .bind fun start => .bind fun l => ?_
  split
  case h_5 => exact .refuse
  all_goals exact .pure (Expression.declared_of_path?_eq_none rfl)

theorem primary_yields : Yields g.primary fun o => o.expression.Declared := by
  have hcreations : ∀ start n, Yields (g.creations start n) fun o => o.expression.Declared := by
    intro start n
    cases n with
    | zero =>
      refine .bind fun _ => .bind fun _ => .ite namedExpression_yields ?_
      refine .bind fun _ => .ite bracketedExpression_yields ?_
      refine .bind fun _ => .ite (.bind fun _ => yields_other) ?_
      exact .bind fun _ => .ite yields_other literal_yields
    | succ n => exact .bind fun _ => .bind fun _ => yields_other
  exact fun ts o rest h => hcreations _ _ h

theorem subscript_yields {calls : Bool} {o : Operand} (ho : o.expression.Declared) :
    Yields (g.subscript calls o) (∀ o' ∈ ·, o'.expression.Declared) := by
  have hsettle : Yields (settle o) Expression.Declared :=
    .bind fun _ => .pure ho
  have hsome : ∀ {o' : Operand}, o'.expression.Declared →
      Yields (pure (some o')) (∀ o' ∈ ·, o'.expression.Declared) := by
    intro o' h
    refine .pure fun o'' e => ?_
    cases e
    exact h
  have hnone : Yields (pure none : Parse (Option Operand)) (∀ o' ∈ ·, o'.expression.Declared) :=
    .pure nofun
  have hother := Expression.declared_of_path?_eq_none (e := .other o.expression.offset) rfl
  refine .bind fun _ => .ite ?_ (.bind fun _ => .ite ?_ (.bind fun _ => .ite ?_ (.bind fun _ =>
    .ite ?_ (.bind fun _ => .ite ?_ (.bind fun _ => .ite ?_ (.bind fun _ => .ite ?_ hnone))))))
  · exact hsettle.bind_of fun e he => .bind fun p => hsome (he.member p)
  · exact hsettle.bind_of fun e he => .bind fun _ => .bind fun _ => hsome (he.member none)
  · exact .bind fun _ => .bind fun _ => .bind fun _ => hsome hother
  · exact .bind fun _ => .bind fun _ => hsome hother
  · exact .bind fun _ => .bind fun _ => hsome hother
  · exact .bind fun _ => hsome hother
  · refine .bind fun b => ?_
    cases b with
    | none => exact hnone
    | some _ => exact .bind fun _ => hsome (Expression.declared_of_path?_eq_none rfl)

theorem unaryRule_yields : Yields g.unaryRule fun o => o.expression.Declared := by
  have hsigned : ∀ {start : Nat}, Yields (g.signed start) fun o => o.expression.Declared := by
    intro start
    exact .bind fun _ => .bind fun _ => .pure (Expression.declared_of_path?_eq_none rfl)
  refine .bind fun start => .bind fun _ => .ite hsigned (.bind fun _ => .ite hsigned ?_)
  refine .bind fun _ => .ite ?_ (.bind fun _ => .ite ?_ (.bind fun _ => .ite ?_
    (.bind fun _ => .ite ?_ ?_)))
  · exact .bind fun _ => .bind fun _ => .bind fun _ =>
      .pure (Expression.declared_of_path?_eq_none rfl)
  · exact .bind fun _ => .bind fun _ => yields_other
  · exact .bind fun _ => .bind fun _ => yields_other
  · exact .bind fun _ => yields_other
  · refine (primary_yields.bind_of fun o ho => .grow (fun o ho => subscript_yields ho) ho).bind_of
      fun o ho => .bind fun _ => .ite (.bind fun _ => yields_other) (.pure ho)

theorem assignmentRule_yields (allowIn : Bool) :
    Yields (g.assignmentRule allowIn) fun o => o.expression.Declared := by
  have hbinary : Yields (g.binary allowIn) fun o => o.expression.Declared :=
    unaryRule_yields.bind_of fun o ho => .bind fun c =>
      .ite (.pure ho) (.bind fun _ => .bind fun _ => yields_other)
  have hconditional : Yields (g.conditional allowIn) fun o => o.expression.Declared :=
    hbinary.bind_of fun o ho => .bind fun _ =>
      .ite (.bind fun _ => .bind fun _ => yields_other) (.pure ho)
  refine .bind fun start => .bind fun a => ?_
  cases a with
  | some _ => exact .bind fun _ => .bind fun _ => .bind fun _ => yields_other
  | none =>
    refine hconditional.bind_of fun o ho => .bind fun _ =>
      .ite (.bind fun _ => .bind fun _ => yields_other) (.bind fun c => ?_)
    cases c with
    | some _ => exact .bind fun _ => .bind fun _ => yields_other
    | none => exact .pure ho

/-! Chains of names in front of a closing bracket. -/

/-- An operand that spells a chain of names. -/
def Spells (path : List String) (o : Operand) : Prop :=
  o.expression.path? = some path ∧ o.pending = false

theorem namedExpression_reads {w : String} {k : List Token → Prop} (hw : isReference w)
    (hs : w ≠ "static") (hk : ∀ ts, k ts → Ahead.anyWord ts = false) :
    Reads g.namedExpression [.word w] k (Spells [w]) := by
  have hne : ∀ x, isReference x = false → w ≠ x := by
    rintro x hx rfl
    rw [hw] at hx
    cases hx
  have hin : ∀ xs : List String, (∀ x ∈ xs, isReference x = false) →
      Shows (k := k) [.word w] fun ts => Ahead.wordIn xs ts = false := by
    intro xs hxs
    refine .head fun t ts ht _ => ?_
    simp only [Ahead.wordIn, Ahead.wordThat, Ahead.lexeme, ht]
    rw [Bool.eq_false_iff, ne_eq, List.contains_iff_mem]
    exact fun h => hne w (hxs w h) rfl
  refine .offset fun start => .sees false (.word_ne (hne _ (by decide))) <|
    .takes_not (.word_ne (hne _ (by decide))) <| .takes_not (hin _ (by decide)) <|
    .takes_not (hin _ (by decide)) <| .takes_not ?_ <| .sees false ?_ <| .require rfl <|
    .wordThat hw <| .require (by simpa using hs) <| .pure ⟨rfl, rfl⟩
  · exact .mono (.word_ne (hne "super" (by decide))) fun ts hts => by simp [Ahead.before, hts]
  · refine .cons (B := fun ts => Ahead.word "function" ts = false) (.nil fun ts hts => ?_)
      fun t ts _ _ hts => by simp [Ahead.words, Ahead.before, Ahead.and, hts]
    have := hk ts hts
    cases ts with
    | nil => rfl
    | cons t ts =>
      simp only [Ahead.anyWord, Ahead.wordThat, Ahead.word, Ahead.lexeme] at this ⊢
      split at this
      · cases this
      · next h => simpa using h "function"

theorem primary_reads {w : String} {k : List Token → Prop} (hw : isReference w)
    (hs : w ≠ "static") (hk : ∀ ts, k ts → Ahead.anyWord ts = false) :
    Reads g.primary [.word w] k (Spells [w]) := by
  have hsimple : Reads g.simpleExpression [.word w] k (Spells [w]) :=
    .offset fun start => .sees true (.head fun t ts ht _ => by
      simp [Ahead.anyWord, Ahead.wordThat, Ahead.lexeme, ht]) (namedExpression_reads hw hs hk)
  have hnew : w ≠ "new" := by
    rintro rfl
    simp [isReference, reservedWords] at hw
  intro ts rest hts hr
  obtain ⟨o, ho, e⟩ := hsimple hts hr
  refine ⟨o, ho, ?_⟩
  obtain ⟨t, us, ⟨ht, -⟩, -, rfl⟩ := laid_cons.1 hts
  rw [primary, List.cons_append, List.takeWhile_cons_of_neg (by simp [ht, hnew])]
  exact e

theorem subscript_reads {o : Operand} {path : List String} {v : String} {k : List Token → Prop}
    (ho : Spells path o) : Reads (g.subscript true o) [.symbol ".", .word v] k
      fun o? => ∃ o', o? = some o' ∧ Spells (path ++ [v]) o' := by
  refine .takes .symbol <| Reads.bind_of_nil (j := fun _ => True)
    (R := (· = o.expression)) (.require (by simp [ho.2]) (.pure rfl)) (fun _ _ _ _ => trivial)
    fun e he => ?_
  subst he
  refine Reads.bind_pure (R := (· = some v)) (.next (.pure rfl)) fun p hp => ?_
  subst hp
  exact ⟨_, rfl, by simp [Spells, Expression.path?, ho.1]⟩

theorem subscript_stops {o : Operand} :
    Reads (g.subscript true o) [] (fun ts => Ahead.symbol "]" ts) (· = none) := by
  have hsymbol : ∀ s, s ≠ "]" → Shows [] (fun ts => Ahead.symbol "]" ts)
      fun ts => Ahead.symbol s ts = false :=
    fun s hs => .nil fun ts hts => Ahead.symbol_of_symbol hts hs.symm
  refine .takes_not (hsymbol _ (by simp)) <| .takes_not (hsymbol _ (by simp)) <|
    .takes_not (hsymbol _ (by simp)) <| .sees false ?_ <| .sees false ?_ <| .takes_not ?_ <|
    .sees false (hsymbol _ (by simp)) <| .pure rfl
  · exact (hsymbol "(" (by simp)).mono fun ts hts => by simp [hts]
  · refine .nil fun ts hts => ?_
    obtain ⟨t, us, rfl, ht⟩ := Ahead.symbol_iff.1 hts
    simp [Ahead.template, Ahead.lexeme, ht]
  · exact (hsymbol "!" (by simp)).mono fun ts hts => by simp [Ahead.and, hts]

theorem leftHandRule_reads {w : String} {ws : List String} (hw : isReference w)
    (hs : w ≠ "static") : Reads g.leftHandRule (lexemes (dottedPieces (w :: ws)))
      (fun ts => Ahead.symbol "]" ts) (Spells (w :: ws)) := by
  rw [lexemes_dottedPieces]
  have hgrows : ∀ ws path o, Spells path o → ∀ ts rest,
      Laid (ws.flatMap fun v => [.symbol ".", .word v]) ts → Ahead.symbol "]" rest →
      ∃ o', Spells (path ++ ws) o' ∧ Grows (g.subscript true) o (ts ++ rest) o' rest := by
    intro ws
    induction ws with
    | nil =>
      intro path o ho ts rest hts hr
      obtain rfl := laid_nil.1 hts
      exact ⟨o, by simpa using ho, .done⟩
    | cons v ws ih =>
      intro path o ho ts rest hts hr
      rw [List.flatMap_cons] at hts
      obtain ⟨ts₁, ts₂, h₁, h₂, rfl⟩ := laid_append.1 hts
      obtain ⟨_, ⟨o', rfl, ho'⟩, e⟩ := subscript_reads (g := g) (k := fun _ => True) ho h₁
        (r := ts₂ ++ rest) trivial
      obtain ⟨o'', ho'', hg⟩ := ih _ o' ho' ts₂ rest h₂ hr
      have hl := h₁.length_eq
      simp only [List.length_cons, List.length_nil] at hl
      refine ⟨o'', by simpa using ho'', .more (by rw [List.append_assoc, e]) ?_ hg⟩
      simp only [List.length_append]
      omega
  refine Reads.bind_cons (primary_reads hw hs fun _ h => h) (k := fun ts =>
    Ahead.symbol "]" ts) ?_ fun o ho ts rest hts hr => ?_
  · cases ws with
    | nil =>
      refine .nil fun ts hts => ?_
      obtain ⟨t, us, rfl, ht⟩ := Ahead.symbol_iff.1 hts
      simp [Ahead.anyWord, Ahead.wordThat, Ahead.lexeme, ht]
    | cons v ws =>
      exact .head fun t ts ht _ => by simp [Ahead.anyWord, Ahead.wordThat, Ahead.lexeme, ht]
  · obtain ⟨o', ho', hgr⟩ := hgrows ws [w] o ho ts rest hts hr
    obtain ⟨_, rfl, e⟩ := subscript_stops (g := g) (o := o') (laid_nil.2 rfl) hr
    exact ⟨o', ho', grow_of_grows hgr e⟩

theorem unaryRule_reads {w : String} {ws : List String} (hw : isReference w) (hs : w ≠ "static") :
    Reads g.unaryRule (lexemes (dottedPieces (w :: ws))) (fun ts => Ahead.symbol "]" ts)
      (Spells (w :: ws)) := by
  have hne : ∀ x, isReference x = false → w ≠ x := by
    rintro x hx rfl
    rw [hw] at hx
    cases hx
  have hpostfixed : Reads g.postfixed (lexemes (dottedPieces (w :: ws)))
      (fun ts => Ahead.symbol "]" ts) (Spells (w :: ws)) := by
    refine (leftHandRule_reads hw hs).bind_nil fun o ho => .takes_not (.nil fun ts hts => ?_)
      (.pure ho)
    obtain ⟨t, us, rfl, ht⟩ := Ahead.symbol_iff.1 hts
    simp [Ahead.and, Ahead.symbolIn, Ahead.lexeme, ht]
  have hsymbols : ∀ xs : List String, Shows (k := fun ts => Ahead.symbol "]" ts)
      (lexemes (dottedPieces (w :: ws))) fun ts => Ahead.symbolIn xs ts = false := by
    intro xs
    rw [lexemes_dottedPieces]
    exact .head fun t ts ht _ => by simp [Ahead.symbolIn, Ahead.lexeme, ht]
  rw [lexemes_dottedPieces] at *
  refine .offset fun start => .takes_not (hsymbols _) <| .takes_not (.head fun t ts ht _ => ?_) <|
    .takes_not (.word_ne (hne _ (by decide))) <| .takes_not (hsymbols _) <|
    .takes_not (.word_ne (hne _ (by decide))) <| .sees false .word_not_symbol hpostfixed
  have := hne "typeof" (by decide)
  have := hne "void" (by decide)
  simp [Ahead.wordIn, Ahead.wordThat, Ahead.lexeme, wordOperators, *]

theorem binary_reads {w : String} {ws : List String} (hw : isReference w) (hs : w ≠ "static") :
    Reads (g.binary false) (lexemes (dottedPieces (w :: ws))) (fun ts => Ahead.symbol "]" ts)
      (Spells (w :: ws)) := by
  refine (unaryRule_reads hw hs).bind_nil fun o ho => ?_
  refine Reads.bind_nil (R := fun c => c.operators = []) ?_ fun c hc => ?_
  · intro ts rest hts hr
    obtain rfl := laid_nil.1 hts
    refine ⟨⟨[], isUnary o.expression⟩, rfl, grow_of_grows .done ?_⟩
    obtain ⟨t, us, rfl, ht⟩ := Ahead.symbol_iff.1 hr
    rw [link, takes_bind,
      if_neg (by simp [Ahead.and, Ahead.wordIn, Ahead.wordThat, Ahead.lexeme, ht])]
    refine bind_eq_some.2 ⟨none, t :: us, ?_, rfl⟩
    simp [takesOperatorIn, operatorAhead, ht, binaryOperators]
  · rw [if_pos (by simp [hc])]
    exact .pure ho

/-- No function with an arrow starts with a chain of names in brackets. -/
theorem arrow_refuses (w : String) (ws : List String) :
    Shows (lexemes (dottedPieces (w :: ws))) (fun ts => Ahead.symbol "]" ts)
      fun ts => g.arrow ts = none := by
  have hopens : Shows (lexemes (dottedPieces (w :: ws))) (fun ts => Ahead.symbol "]" ts)
      fun ts => opensAsyncArrow ts = false ∧ opensArrow ts = false := by
    rw [lexemes_dottedPieces]
    refine .cons
      (B := fun ts => ∃ s us u, ts = u :: us ∧ u.lexeme = .symbol s ∧ s ∈ [".", "]"]) ?_ ?_
    · cases ws with
      | nil =>
        refine .nil fun ts hts => ?_
        obtain ⟨t, us, rfl, ht⟩ := Ahead.symbol_iff.1 hts
        exact ⟨_, us, t, rfl, ht, by simp⟩
      | cons v ws => exact .head fun t ts ht _ => ⟨_, ts, t, rfl, ht, by simp⟩
    · rintro t _ ht - ⟨s, us, u, rfl, hu, hs⟩
      simp only [List.mem_cons, List.not_mem_nil, or_false] at hs
      rcases hs with rfl | rfl <;>
        simp [opensAsyncArrow, opensArrow, Ahead.symbol, Ahead.anyWord, Ahead.wordThat, Ahead.and,
          Ahead.lexeme, ht, hu]
  refine hopens.mono fun ts hts => ?_
  rw [arrow, takes_bind, if_neg (by simp [hts.1]), if_neg (by simp), sees_bind, require_bind,
    if_neg (by simp [hts.2])]

theorem assignmentRule_reads {w : String} {ws : List String} (hw : isReference w)
    (hs : w ≠ "static") : Reads (g.assignmentRule false) (lexemes (dottedPieces (w :: ws)))
      (fun ts => Ahead.symbol "]" ts) (Spells (w :: ws)) := by
  have hsymbol : ∀ s, s ≠ "]" → Shows [] (fun ts => Ahead.symbol "]" ts)
      fun ts => Ahead.symbol s ts = false :=
    fun s hs => .nil fun ts hts => Ahead.symbol_of_symbol hts hs.symm
  have hconditional : Reads (g.conditional false) (lexemes (dottedPieces (w :: ws)))
      (fun ts => Ahead.symbol "]" ts) (Spells (w :: ws)) :=
    (binary_reads hw hs).bind_nil fun o ho => .takes_not (hsymbol _ (by simp)) (.pure ho)
  have harrow := arrow_refuses (g := g) w ws
  rw [lexemes_dottedPieces] at *
  refine .offset fun start => .attempt_not harrow <| hconditional.bind_nil fun o ho =>
    .takes_not (hsymbol _ (by simp)) ?_
  refine Reads.bind_nil (R := (· = none)) (fun ts rest hts hr => ?_) fun c hc => ?_
  · obtain rfl := laid_nil.1 hts
    obtain ⟨t, us, rfl, ht⟩ := Ahead.symbol_iff.1 hr
    exact ⟨none, rfl, by simp [takesOperatorIn, operatorAhead, ht, compoundAssignments]⟩
  · subst hc
    exact .pure ho

theorem value_reads {w : String} {ws : List String} {n : Nat} (hn : 0 < n) (hw : isReference w)
    (hs : w ≠ "static") : Reads ((grammar n).value false) (lexemes (dottedPieces (w :: ws)))
      (fun ts => Ahead.symbol "]" ts) (·.path? = some (w :: ws)) := by
  obtain _ | n := n
  · omega
  have hassignment : Reads ((grammar (n + 1)).assignment false) (lexemes (dottedPieces (w :: ws)))
      (fun ts => Ahead.symbol "]" ts) (Spells (w :: ws)) :=
    fun ts rest hts hr => assignmentRule_reads hw hs hts hr
  exact hassignment.bind_nil fun o ho => .require (by simp [ho.2]) (.pure ho.1)

/-! Keys. -/

/-- The lexemes of a key: a word, a string, a number, or a chain of names in brackets. -/
def IsKey (ls : List Lexeme) : Prop :=
  (∃ w, ls = [.word w]) ∨ (∃ v, ls = [.string v]) ∨ (∃ s, ls = [.number s]) ∨
    ∃ w v ws, ls = .symbol "[" :: lexemes (dottedPieces (w :: v :: ws)) ++ [.symbol "]"]

/-- A key that has a name is one of four. -/
theorem named_cases {key : Key} (h : key.named) :
    (∃ w o, key.value = .name w o) ∨ (∃ v o, key.value = .string v o) ∨
      (∃ s o, key.value = .number s o) ∨
      ∃ e p w v ws, key.value = .member e p ∧ key.value.path? = some (w :: v :: ws) := by
  obtain ⟨computed, e⟩ := key
  cases e with
  | name w o => exact .inl ⟨w, o, rfl⟩
  | string v o => exact .inr (.inl ⟨v, o, rfl⟩)
  | number s o => exact .inr (.inr (.inl ⟨s, o, rfl⟩))
  | member e p =>
    obtain ⟨path, hpath⟩ :=
      Option.isSome_iff_exists.1 (show (Expression.member e p).path?.isSome from h)
    obtain ⟨_, _, e, -⟩ | ⟨e', p', path', -, -, hne, hp⟩ := Expression.path?_cases hpath
    · cases e
    obtain ⟨w, ws, rfl⟩ := List.exists_cons_of_ne_nil hne
    refine .inr (.inr (.inr ⟨e, p, w, ?_⟩))
    cases ws with
    | nil => exact ⟨p', [], rfl, by rw [hpath, hp]; rfl⟩
    | cons v ws => exact ⟨v, ws ++ [p'], rfl, by rw [hpath, hp]; rfl⟩
  | boolean o => cases h
  | bigint o => cases h
  | unary e o => cases h
  | «instance» e => cases h
  | other o => cases h

theorem lexemes_keyPieces {e : Expression} {p : Option String} {path : List String}
    (h : (Expression.member e p).path? = some path) :
    lexemes (Expression.member e p).keyPieces =
      .symbol "[" :: lexemes (dottedPieces path) ++ [.symbol "]"] := by
  simp [Expression.keyPieces, h]

theorem isKey_of_named {key : Key} (h : key.named) : IsKey (lexemes key.value.keyPieces) := by
  obtain ⟨w, o, e⟩ | ⟨v, o, e⟩ | ⟨s, o, e⟩ | ⟨e', p, w, v, ws, e, hp⟩ := named_cases h
  · exact .inl ⟨w, by rw [e]; rfl⟩
  · exact .inr (.inl ⟨v, by rw [e]; rfl⟩)
  · exact .inr (.inr (.inl ⟨s, by rw [e]; rfl⟩))
  · rw [e] at hp
    exact .inr (.inr (.inr ⟨w, v, ws, by rw [e, lexemes_keyPieces hp]⟩))

variable {ts rest : List Token}

theorem simpleKey_eq_some {e : Expression} (h : simpleKey ts = some (e, rest)) :
    ∃ t, ts = t :: rest ∧ ((∃ w, t.lexeme = .word w ∧ e = .name w t.offset) ∨
      (∃ v, t.lexeme = .string v ∧ e = .string v t.offset) ∨
      ∃ s, t.lexeme = .number s ∧ e = .number s t.offset) := by
  obtain ⟨o, mid, ho, h⟩ := bind_eq_some.1 h
  obtain ⟨l, mid', hl, h⟩ := bind_eq_some.1 h
  cases ts with
  | nil => cases ho
  | cons t ts =>
    obtain ⟨l, o, b, gl⟩ := t
    cases ho
    cases hl
    cases l with
    | word w =>
      cases h
      exact ⟨_, rfl, .inl ⟨w, rfl, rfl⟩⟩
    | string v =>
      cases h
      exact ⟨_, rfl, .inr (.inl ⟨v, rfl, rfl⟩)⟩
    | number s =>
      cases h
      exact ⟨_, rfl, .inr (.inr ⟨s, rfl, rfl⟩)⟩
    | _ => cases h

/-- Members of a literal are no chain of names. -/
theorem literalMember_yields {e : Expression} (he : e.path? = none) :
    Yields (g.literalMember e) (∀ e' ∈ ·, e'.path? = none) := by
  refine .bind fun _ => .ite (.bind fun w => .pure fun e' h => ?_) <| .bind fun _ =>
    .ite (.bind fun _ => .bind fun _ => .pure fun e' h => ?_) (.pure nofun)
  · cases h
    simp [Expression.path?, he]
  · cases h
    rfl

/-- A key that is a word stands in the source, if it is not computed; if it is, it may be
declared. -/
theorem signatureKey_eq_some (hg : g.Recalls) {key : Key}
    (h : g.signatureKey ts = some (key, rest)) :
    (∃ w o, key.value = .name w o ∧ Ahead.word w ts ∧ rest = ts.tail) ∨ key.value.Declared := by
  rcases takes_ite_eq_some.1 h with ⟨-, h⟩ | ⟨-, h⟩
  · obtain ⟨e, mid, hv, h⟩ := bind_eq_some.1 h
    obtain ⟨o, mid', ho, hs⟩ := bind_eq_some.1 hv
    obtain ⟨_, _, -, hs⟩ := bind_eq_some.1 hs
    cases hs
    obtain ⟨_, _, -, -, h⟩ := symbol_bind_eq_some.1 h
    cases h
    exact .inr (hg.value _ ho)
  rcases sees_ite_eq_some.1 h with ⟨hw, h⟩ | ⟨hw, h⟩
  · obtain ⟨e, mid, hk, h⟩ := bind_eq_some.1 h
    cases h
    obtain ⟨t, rfl, ⟨w, ht, rfl⟩ | ⟨v, ht, -⟩ | ⟨s, ht, -⟩⟩ := simpleKey_eq_some hk
    · exact .inl ⟨w, _, rfl, Ahead.word_iff.2 ⟨t, _, rfl, ht⟩, rfl⟩
    · simp [Ahead.anyWord, Ahead.wordThat, Ahead.lexeme, ht] at hw
    · simp [Ahead.anyWord, Ahead.wordThat, Ahead.lexeme, ht] at hw
  · right
    obtain ⟨e, mid, hk, h⟩ := bind_eq_some.1 h
    obtain ⟨e', mid', hgrow, h⟩ := bind_eq_some.1 h
    cases h
    have he : e.path? = none := by
      obtain ⟨t, rfl, ⟨w, ht, rfl⟩ | ⟨v, -, rfl⟩ | ⟨s, -, rfl⟩⟩ := simpleKey_eq_some hk
      · simp [Ahead.anyWord, Ahead.wordThat, Ahead.lexeme, ht] at hw
      · rfl
      · rfl
    exact Expression.declared_of_path?_eq_none
      (Yields.grow (fun e he => literalMember_yields he) he hgrow)

/-- A key that is a literal ends where no member of it is asked for. -/
theorem literalMember_stops {k : List Token → Prop} (e : Expression)
    (hk : ∀ ts, k ts → Ahead.symbol "." ts = false ∧ Ahead.symbol "[" ts = false) :
    Reads (grow g.literalMember e) [] k (· = e) := by
  have hstop : Reads (g.literalMember e) [] k (· = none) :=
    .takes_not (.nil fun ts hts => (hk ts hts).1) <|
      .takes_not (.nil fun ts hts => (hk ts hts).2) <| .pure rfl
  intro ts rest hts hr
  obtain ⟨_, rfl, e'⟩ := hstop hts hr
  obtain rfl := laid_nil.1 hts
  exact ⟨e, rfl, grow_of_grows .done e'⟩

theorem signatureKey_back (hg : g.Recalls) {key : Key} {n : Nat} {k : List Token → Prop}
    (h : g.signatureKey ts = some (key, rest)) (hl : key.named) (hn : 0 < n)
    (hk : ∀ ts, k ts → Ahead.symbol "." ts = false ∧ Ahead.symbol "[" ts = false) :
    Reads (grammar n).signatureKey (lexemes key.value.keyPieces) k (·.erased = key.erased) := by
  have hliteral : ∀ {l : Lexeme} {e : Expression}, (∀ w, l ≠ .word w) → l ≠ .symbol "[" →
      (∀ k, Reads simpleKey [l] k fun e' => e'.unplaced = e.unplaced) →
      (∀ e', e'.unplaced = e.unplaced → (⟨false, e'⟩ : Key).erased = key.erased) →
      Reads (grammar n).signatureKey [l] k (·.erased = key.erased) := by
    intro l e hw hs hread he
    refine .takes_not (.head fun t ts ht _ => ?_) <| .sees false (.head fun t ts ht _ => ?_) <|
      (hread k).bind_nil fun e' he' => (literalMember_stops e' hk).bind_pure fun e'' he'' => ?_
    · simp [Ahead.symbol, Ahead.lexeme, ht, hs]
    · unfold Ahead.anyWord Ahead.wordThat Ahead.lexeme
      dsimp only
      split
      · next w hlex => exact absurd (ht.symm.trans hlex) (hw w)
      · rfl
    · rw [he'']
      exact he e' he'
  obtain ⟨computed, e⟩ := key
  obtain ⟨w, o, he⟩ | ⟨v, o, he⟩ | ⟨s, o, he⟩ | ⟨e', p, w, v, ws, he, hp⟩ := named_cases hl
  · obtain rfl : e = .name w o := he
    refine .takes_not .word_not_symbol <| .sees true (.head fun t ts ht _ => ?_) <|
      Reads.bind_pure (R := fun e => e.unplaced = .name w 0) (.offset fun o' => .next (.pure rfl))
      fun e he => ?_
    · simp [Ahead.anyWord, Ahead.wordThat, Ahead.lexeme, ht]
    · cases e <;> cases he
      rfl
  · obtain rfl : e = .string v o := he
    refine hliteral (e := .string v o) (by simp) (by simp)
      (fun k => .offset fun o' => .next (.pure rfl)) fun e he => ?_
    cases e <;> cases he
    rfl
  · obtain rfl : e = .number s o := he
    refine hliteral (e := .number s o) (by simp) (by simp)
      (fun k => .offset fun o' => .next (.pure rfl)) fun e he => ?_
    cases e <;> cases he
    rfl
  · obtain rfl : e = .member e' p := he
    obtain ⟨w', o, e, -, -⟩ | hdeclared := signatureKey_eq_some hg h
    · cases e
    obtain ⟨hw, hs⟩ := hdeclared w _ hp
    rw [lexemes_keyPieces hp]
    refine .takes .symbol <| (value_reads hn hw hs).bind .symbol fun e he => .symbol <| .pure ?_
    have hunplaced := Expression.unplaced_eq_of_path? he hp
    obtain ⟨_, _, -, e⟩ | ⟨e'', p', path', rfl, -, -, -⟩ := Expression.path?_cases he
    · cases e
    · simp [Key.erased, hunplaced]

end Grammar
end ApiSurface.Source
