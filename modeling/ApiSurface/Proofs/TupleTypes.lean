import ApiSurface.Proofs.NamedTypes

/-! Tuples are read back. An element of a tuple has no label in the text unless it had
one, since no type opens with a word and a colon. -/
namespace ApiSurface.Source
open Parse Piece

namespace Grammar

variable {g : Grammar} {ts rest : List Token} {n : Nat} {k : List Token → Prop} {t : TypeTerm}

/-! Labels. -/

/-- What follows makes no label of a word, not even behind a mark. -/
def EndsElement (ts : List Token) : Prop :=
  Ahead.symbol ":" ts = false ∧ (Ahead.symbol "?" ts → Ahead.symbol ":" ts.tail = false)

theorem endsElement_of_symbol {s : String} (h : Ahead.symbol s ts) (hs : s ∈ [",", "]"]) :
    EndsElement ts := by
  have hne : s ≠ ":" ∧ s ≠ "?" := by
    simp only [List.mem_cons, List.not_mem_nil, or_false] at hs
    rcases hs with rfl | rfl <;> simp
  refine ⟨Ahead.symbol_of_symbol h hne.1, fun h' => ?_⟩
  rw [Ahead.symbol_of_symbol h hne.2] at h'
  cases h'

/-- A label behind the dots that may stand in front of it. -/
def labelName (takesRest : Bool) : Parse (Bool × String × Bool) := do
  let name ← anyWord
  let isOptional ← takesSymbol "?"
  symbol ":"
  pure (takesRest, name, isOptional)

/-- A label is refused where the word that would be one is not followed as one. -/
theorem labelName_refuses {b : Bool} {u : Token} {us : List Token}
    (h : ∀ w, u.lexeme = .word w → EndsElement us) : labelName b (u :: us) = none := by
  by_contra hne
  obtain ⟨r, h'⟩ := Option.ne_none_iff_exists'.1 hne
  obtain ⟨w, mid, hw, h'⟩ := bind_eq_some.1 h'
  obtain ⟨_, e, hu, -⟩ := wordThat_eq_some.1 hw
  cases e
  obtain ⟨hcolon, hmark⟩ := h w hu
  have hsymbol : ∀ {f : Unit → Parse (Bool × String × Bool)} {vs : List Token},
      Ahead.symbol ":" vs = false → (symbol ":" >>= f) vs ≠ some r := by
    intro f vs hvs e
    obtain ⟨v, vs, rfl, hv, -⟩ := symbol_bind_eq_some.1 e
    simp [Ahead.symbol, Ahead.lexeme, hv] at hvs
  rw [takesSymbol, takes_bind] at h'
  split at h'
  · exact hsymbol (hmark ‹_›) h'
  · exact hsymbol hcolon h'

/-- No type opens with the name of a label. -/
theorem shows_no_name {b : Bool} {ls : List Lexeme} (h : opensType ls) :
    Shows ls EndsElement fun ts => labelName b ts = none := by
  rintro ts rest hts hr
  obtain ⟨l, ls, rfl⟩ := exists_cons_of_opensType h
  obtain ⟨t, us, ⟨rfl, -⟩, hus, rfl⟩ := laid_cons.1 hts
  refine labelName_refuses fun w hw => ?_
  rw [hw] at h
  cases ls with
  | nil =>
    obtain rfl := laid_nil.1 hus
    exact hr
  | cons l ls =>
    obtain ⟨v, vs, ⟨rfl, -⟩, -, rfl⟩ := laid_cons.1 hus
    have hne : ∀ s ∈ afterName, Ahead.symbol s (v :: (vs ++ rest)) = false := by
      intro s hs
      by_contra hv
      obtain ⟨_, _, e, hv⟩ := Ahead.symbol_iff.1 (by simpa using hv)
      cases e
      rw [hv] at h
      simp [opensType, leavesType, hs] at h
    change EndsElement (v :: (vs ++ rest))
    refine ⟨hne _ (by simp [afterName]), fun hq => ?_⟩
    rw [hne _ (by simp [afterName])] at hq
    cases hq

/-- No type opens with a label, nor does a type behind dots. -/
theorem shows_no_label {ls : List Lexeme} (h : opensType ls) :
    Shows ls EndsElement (fun ts => elementLabel ts = none) ∧
      Shows (.symbol "..." :: ls) EndsElement fun ts => elementLabel ts = none := by
  refine ⟨fun ts rest hts hr => ?_, .cons (shows_no_name (b := true) h) fun t ts ht _ hts => ?_⟩
  · have hdots : Ahead.symbol "..." (ts ++ rest) = false := by
      obtain ⟨l, ls, rfl, hl⟩ := ne_symbol_of_opensType h (s := "...") (by simp)
      obtain ⟨t, us, ⟨rfl, -⟩, -, rfl⟩ := laid_cons.1 hts
      simp [Ahead.symbol, Ahead.lexeme, hl]
    change (takesSymbol "..." >>= labelName) _ = none
    rw [takesSymbol, takes_bind, if_neg (by simp [hdots])]
    exact shows_no_name h hts hr
  · change (takesSymbol "..." >>= labelName) _ = none
    rw [takesSymbol, takes_bind, if_pos (Ahead.symbol_iff.2 ⟨t, ts, rfl, ht⟩)]
    exact hts

/-! Elements of tuples. -/

theorem elementType_back (hg : g.Recalls) (h : g.elementType ts = some (t, rest)) (hl : t.legible)
    (hn : (lexemes t.pieces).length < n) (hk : Closes k) :
    (∃ ls, opensType ls ∧ (lexemes t.pieces = ls ∨ lexemes t.pieces = .symbol "..." :: ls ∨
        lexemes t.pieces = ls ++ [.symbol "?"])) ∧
      Reads (grammar n).elementType (lexemes t.pieces) k (·.erased = t.erased) := by
  rcases takes_ite_eq_some.1 h with ⟨-, h⟩ | ⟨-, h⟩
  · obtain ⟨t', mid, ht, e⟩ := bind_eq_some.1 h
    cases e
    rw [TypeTerm.legible] at hl
    have hr := hg.type true ht hl
    have hls : lexemes (TypeTerm.rest t').pieces = .symbol "..." :: lexemes t'.pieces := by
      simp [TypeTerm.pieces]
    rw [hls] at hn ⊢
    rw [List.length_cons] at hn
    refine ⟨⟨_, hr.opens, .inr (.inl rfl)⟩, .takes .symbol <|
      (hr.type_closed (by omega) hk).bind_pure fun t'' ht'' => ?_⟩
    simp [TypeTerm.erased, ht'']
  · have hdots : ∀ {ls : List Lexeme} (ls' : List Lexeme) {k : List Token → Prop}, opensType ls →
        Shows (ls ++ ls') k fun ts => Ahead.symbol "..." ts = false := by
      intro ls ls' k ho
      obtain ⟨l, ls, rfl, hl⟩ := ne_symbol_of_opensType ho (s := "...") (by simp)
      exact .head fun t ts ht _ => by simp [Ahead.symbol, Ahead.lexeme, ht, hl]
    obtain ⟨t', mid, ht, h⟩ := bind_eq_some.1 h
    rcases takes_ite_eq_some.1 h with ⟨hq, h⟩ | ⟨-, h⟩
    · cases h
      rw [TypeTerm.legible] at hl
      have hr := hg.type true ht hl
      have hls : lexemes (TypeTerm.optional t').pieces = lexemes t'.pieces ++ [.symbol "?"] := by
        simp [TypeTerm.pieces]
      rw [hls] at hn ⊢
      rw [List.length_append] at hn
      refine ⟨⟨_, hr.opens, .inr (.inr rfl)⟩, .takes_not (hdots _ hr.opens) <|
        (hr.type (m := 0) (by omega)).bind (.head fun t ts ht _ => ?_) fun t'' ht'' =>
          .takes .symbol (.pure ?_)⟩
      · exact follows_of_symbol ht (by simp) hq
      · simp [TypeTerm.erased, ht'']
    · cases h
      have hr := hg.type true ht hl
      have hshow := hdots [] (k := k) hr.opens
      rw [List.append_nil] at hshow
      refine ⟨⟨_, hr.opens, .inl rfl⟩, .takes_not hshow <|
        (hr.type_closed hn hk).bind_nil fun t'' ht'' => .takes_not (.nil fun ts hts => ?_)
          (.pure ht'')⟩
      obtain ⟨u, us, rfl, hu⟩ := hk ts hts
      exact symbol_eq_false_of_closes hu (by simp)

theorem tupleElement_back (hg : g.Recalls) {e : TupleElement}
    (h : g.tupleElement ts = some (e, rest)) (hl : e.legible) (hn : (lexemes e.pieces).length < n)
    (hk : Closes k) (hend : ∀ ts, k ts → EndsElement ts) :
    (∃ l ls, lexemes e.pieces = l :: ls ∧ l ≠ .symbol "]") ∧
      Reads (grammar n).tupleElement (lexemes e.pieces) k (·.erased = e.erased) := by
  obtain ⟨label?, mid, hlabel, h⟩ := bind_eq_some.1 h
  cases label? with
  | some label =>
    obtain ⟨takesRest, name, isOptional⟩ := label
    obtain ⟨t, mid', ht, e⟩ := bind_eq_some.1 h
    cases e
    rw [TupleElement.legible] at hl
    have hls : lexemes (TupleElement.labelled takesRest name isOptional t).pieces =
        ((if takesRest then [.symbol "..."] else []) ++ [.word name, .symbol ":"]) ++
          lexemes t.pieces := by
      cases takesRest <;> simp [TupleElement.pieces]
    rw [hls] at hn ⊢
    rw [List.length_append] at hn
    have htype := (elementType_back (n := n) hg ht hl (by omega) hk).2
    have hname : ∀ b, Reads (labelName b) [.word name, .symbol ":"] (fun _ => True)
        (· = (b, name, false)) :=
      fun b => .anyWord <| .takes_not (.symbol_ne (by simp)) <| .symbol <| .pure rfl
    have hread : Reads elementLabel ((if takesRest then [.symbol "..."] else []) ++
        [.word name, .symbol ":"]) (fun _ => True) (· = (takesRest, name, false)) := by
      cases takesRest
      · exact .takes_not .word_not_symbol (hname false)
      · exact .takes .symbol (hname true)
    refine ⟨by cases takesRest <;> exact ⟨_, _, rfl, by simp⟩, ?_⟩
    refine (hread.attempt (Q := (· = some (takesRest, name, false))) fun _ h => by rw [h]).bind
      (fun _ _ _ _ => trivial) ?_
    rintro _ rfl
    exact htype.bind_pure fun t' ht' => by simp [TupleElement.erased, ht']
  | none =>
    obtain ⟨t, mid', ht, e⟩ := bind_eq_some.1 h
    cases e
    rw [TupleElement.legible] at hl
    change (lexemes t.pieces).length < n at hn
    change (∃ l ls, lexemes t.pieces = l :: ls ∧ l ≠ .symbol "]") ∧
      Reads (grammar n).tupleElement (lexemes t.pieces) k (·.erased = (TupleElement.plain t).erased)
    obtain ⟨⟨ls, ho, hls⟩, htype⟩ := elementType_back hg ht hl hn hk
    obtain ⟨l, ls', hcons, hne⟩ := ne_symbol_of_opensType ho (s := "]") (by simp)
    refine ⟨?_, .attempt_not ?_ (htype.bind_pure fun t' ht' => by simp [TupleElement.erased, ht'])⟩
    · rcases hls with e | e | e <;> rw [e]
      · exact ⟨l, ls', hcons, hne⟩
      · exact ⟨_, _, rfl, by simp⟩
      · exact ⟨l, _, by rw [hcons]; rfl, hne⟩
    · rcases hls with e | e | e <;> rw [e]
      · exact (shows_no_label ho).1.mono_next hend
      · exact (shows_no_label ho).2.mono_next hend
      · refine (shows_no_label ho).1.append (.cons (.nil hend) fun t ts ht _ hts => ?_)
        refine ⟨?_, fun _ => hts.1⟩
        simp [Ahead.symbol, Ahead.lexeme, ht]

/-! Tuples. -/

/-- Whether types may stand behind one another does not depend on what is erased. -/
theorem optionalsLast_erased (es : List TupleElement) (seen : Bool) :
    optionalsLast seen (erasedElements es) = optionalsLast seen es := by
  induction es generalizing seen with
  | nil => rfl
  | cons e es ih =>
    cases e with
    | plain t =>
      cases t <;>
        simp [erasedElements, TupleElement.erased, TypeTerm.erased, optionalsLast, ih]
    | labelled takesRest name isOptional t =>
      cases t <;>
        simp [erasedElements, TupleElement.erased, TypeTerm.erased, optionalsLast, ih]

theorem tuple_back (hg : g.Recalls) (h : g.tuple ts = some (t, rest)) (hl : t.legible)
    (hn : (lexemes t.pieces).length ≤ n) :
    (∃ ls, lexemes t.pieces = .symbol "[" :: ls ∧ EndsGroup ls) ∧ t.tests = false ∧
      Reads (grammar n).tuple (lexemes t.pieces) k (·.erased = t.erased) := by
  obtain ⟨_, us, -, -, h⟩ := symbol_bind_eq_some.1 h
  obtain ⟨es, mid, hes, h⟩ := bind_eq_some.1 h
  rw [require_bind] at h
  split at h
  case isFalse => cases h
  case isTrue hlast =>
  cases h
  have hls : lexemes (TypeTerm.tuple es).pieces =
      .symbol "[" :: (lexemes (commaPieces (elementsPieces es)) ++ [.symbol "]"]) := by
    simp [TypeTerm.pieces]
  have hends := endsGroup_of_balanced (c := "]") (balanced_commaPieces (balanced_elements es))
    (by simp)
  rw [hls] at hn ⊢
  rw [elementsPieces_eq_map, lexemes_commaPieces_map] at hn hends ⊢
  simp only [List.length_cons, List.length_append] at hn
  rw [TypeTerm.legible] at hl
  have hitem : ∀ e ∈ es, ∀ ts mid s, g.tupleElement ts = some (e, mid) → s ∈ [",", "]"] →
      (∃ l ls, lexemes e.pieces = l :: ls ∧ l ≠ .symbol "]") ∧
        Reads (grammar n).tupleElement (lexemes e.pieces) (fun ts => Ahead.symbol s ts)
          (·.erased = e.erased) := by
    intro e he ts mid s hread hs
    refine tupleElement_back hg hread (elementsLegible_iff.1 hl e he) ?_ (closes_symbol ?_)
      fun ts hts => endsElement_of_symbol hts hs
    · have := length_le_intercalate [.symbol ","]
        (List.mem_map_of_mem (f := fun e : TupleElement => lexemes e.pieces) he)
      omega
    · simp only [List.mem_cons, List.not_mem_nil, or_false] at hs ⊢
      tauto
  have heach : ReadsEach (grammar n).tupleElement (fun e : TupleElement => lexemes e.pieces)
      (fun ts => Ahead.symbol "]" ts) (fun ts => Ahead.symbol "," ts)
      (fun e e' => e'.erased = e.erased) es := by
    obtain rfl | ⟨mid, hparted, -⟩ := commaList_parted hes
    · trivial
    · exact hparted.readsEach
        (fun ts e mid he hread _ => (hitem e he ts mid "," hread (by simp)).2)
        fun ts e he hread => (hitem e (List.mem_of_getLast? he) ts _ "]" hread (by simp)).2
  have hne : ∀ e ∈ es, ∃ l ls, lexemes e.pieces = l :: ls ∧ l ≠ .symbol "]" := by
    intro e he
    obtain rfl | ⟨mid, hparted, -⟩ := commaList_parted hes
    · cases he
    · obtain ⟨ts, mid, hread⟩ := hparted.forall e he
      exact (hitem e he ts mid "]" hread (by simp)).1
  refine ⟨⟨_, rfl, hends⟩, rfl,
    .symbol ((heach.commaList (by simp) hne).bind_nil fun es' hes' => ?_)⟩
  have herased : erasedElements es' = erasedElements es := by
    rw [erasedElements_eq_map, erasedElements_eq_map, map_eq_of_forall₂ hes']
  refine .require ?_ (.pure (by simp [TypeTerm.erased, herased]))
  rw [← optionalsLast_erased, herased, optionalsLast_erased]
  exact hlast

end Grammar
end ApiSurface.Source
