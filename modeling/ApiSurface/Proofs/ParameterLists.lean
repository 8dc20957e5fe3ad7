import ApiSurface.Proofs.NamedTypes
import ApiSurface.Proofs.TypeLevels

/-! Parameters, their types, and results of functions are read back. What has no type gets one in
the text. -/
namespace ApiSurface.Source
open Parse Piece

namespace Grammar

variable {g : Grammar} {ts rest : List Token} {n : Nat} {k : List Token → Prop} {c : Bool}

/-! The type that stands for none. -/

theorem void_reads (hk : Closes k) (hn : 1 < n) :
    Reads ((grammar n).type c) [.word voidText] k (·.erased = .keyword voidText) := by
  obtain _ | n := n
  · omega
  have hv : RecalledOperand (fun n => (grammar n).namedType) [⟨.word voidText, 0, false, false⟩]
      (.keyword voidText) [] := keyword_back (by decide) rfl
  have hfollow : ∀ ts, k ts → MayFollow c 0 [.word voidText] [] ts := by
    intro ts hts
    obtain ⟨t, us, rfl, ht⟩ := hk ts hts
    exact follows_of_closes ht
  have hsymbol : ∀ s, s ∉ [")", "]", "\x7d", ">", ",", ":", ";"] → ∀ ts, k ts →
      Ahead.symbol s ts = false := by
    intro s hs ts hts
    obtain ⟨t, us, rfl, ht⟩ := hk ts hts
    exact symbol_eq_false_of_closes ht hs
  have hextends : ∀ ts, k ts → Ahead.word "extends" ts = false := by
    intro ts hts
    obtain ⟨t, us, rfl, ht⟩ := hk ts hts
    exact word_eq_false_of_closes ht (by simp)
  have hnamed : Reads (grammar n).namedType [.word voidText] k (·.erased = .keyword voidText) :=
    (hv.back c (m := 0) (Nat.le_of_lt_succ hn)).mono hfollow fun _ h => h
  have hprimary : Reads (grammar n).primaryType [.word voidText] k (·.erased = .keyword voidText) :=
    .sees true (.head fun t ts ht _ => by simp [Ahead.anyWord, Ahead.wordThat, Ahead.lexeme, ht])
      hnamed
  rw [type_grammar_succ]
  refine typeRule_of_unconditional (unconditional_of_union (grammar_bindsGroups n)
    (joined_of_part (joined_of_part
      (operand_of_suffixed (suffixedType_of_primary hprimary ?_) (by simp) ?_)
      ⟨_, _, rfl, by simp⟩ ?_)
    ⟨_, _, rfl, by simp⟩ ?_) hv.operand ?_) ?_
  · exact fun ts hts => by simp [Ahead.and, hsymbol "[" (by simp) ts hts]
  · rintro w ls e
    cases e
    exact ⟨rfl, by decide⟩
  · exact hsymbol "&" (by simp)
  · exact hsymbol "|" (by simp)
  · exact fun ts hts => ⟨(hfollow ts hts).symbol_eq_false (by simp),
      (hfollow ts hts).word_eq_false (by simp)⟩
  · exact fun ts hts => by simp [Ahead.and, hextends ts hts]

/-! Results. -/

/-- What does not look like a test is read as none. -/
theorem shows_not_test (ls : List Lexeme) (ho : opensType ls) (hl : looksTested ls = false) :
    Shows ls (fun ts => Ahead.word "is" ts = false) fun ts =>
      ((Ahead.word "asserts").before Ahead.reference) ts = false ∧
        (Ahead.reference.before ((Ahead.word "is").and Ahead.sameLine)) ts = false := by
  rintro ts rest hts hr
  obtain ⟨l, ls, rfl⟩ := exists_cons_of_opensType ho
  obtain ⟨t, us, ⟨rfl, -⟩, hus, rfl⟩ := laid_cons.1 hts
  cases hw : t.lexeme with
  | word a =>
    rw [hw] at hl
    obtain _ | ⟨l, ls⟩ := ls
    · obtain rfl := laid_nil.1 hus
      have ha : a ≠ "asserts" := by simpa [looksTested] using hl
      simp [Ahead.before, Ahead.word, Ahead.lexeme, hw, ha] at hr ⊢
      simp [Ahead.and, Ahead.lexeme, hr]
    · obtain ⟨v, vs, ⟨rfl, -⟩, -, rfl⟩ := laid_cons.1 hus
      cases hv : v.lexeme with
      | word b =>
        simp only [looksTested, hv, Bool.or_eq_false_iff, Bool.and_eq_false_iff,
          decide_eq_false_iff_not] at hl
        simp only [Ahead.before, Ahead.word, Ahead.reference, Ahead.wordThat, Ahead.lexeme, hw,
          List.cons_append, List.tail_cons, hv, Bool.and_eq_false_iff, beq_eq_false_iff_ne, ne_eq,
          Lexeme.word.injEq, Ahead.and]
        exact ⟨hl.1, hl.2.imp id .inl⟩
      | _ => simp [Ahead.before, Ahead.and, Ahead.word, Ahead.reference, Ahead.wordThat,
          Ahead.lexeme, hv]
  | _ => simp [Ahead.before, Ahead.word, Ahead.reference, Ahead.wordThat, Ahead.lexeme, hw]

/-- A result that tests a parameter. -/
theorem test_result_back (hg : g.Recalls) {asserts : Bool} {subject : String} {t : TypeTerm}
    (h : g.type c ts = some (t, rest)) (hl : t.legible) (hs : isReference subject)
    (ha : asserts = false → subject ≠ "asserts") ⦃m : Nat⦄
    (hn : (lexemes (TypeTerm.predicate asserts subject (some t)).pieces).length + m < n) :
    Reads ((grammar n).result c) (lexemes (TypeTerm.predicate asserts subject (some t)).pieces)
      (MayFollow c m (lexemes (TypeTerm.predicate asserts subject (some t)).pieces) rest)
      (·.erased = (TypeTerm.predicate asserts subject (some t)).erased) := by
  have hls : lexemes (TypeTerm.predicate asserts subject (some t)).pieces =
      (if asserts then [.word "asserts"] else []) ++ .word subject :: .word "is" ::
        lexemes t.pieces := by
    cases asserts <;> rfl
  rw [hls] at hn ⊢
  have hreads : ∀ k : List Token → Prop,
      (∀ ts, k ts → MayFollow c m (lexemes t.pieces) rest ts) →
      Reads (sees (Ahead.reference.before ((Ahead.word "is").and Ahead.sameLine)) >>= fun tests =>
        if tests then anyWord >>= fun subject => Parse.word "is" >>= fun _ =>
          (grammar n).type c >>= fun t => Pure.pure (.predicate asserts subject (some t))
        else if asserts then anyWord >>= fun w => Pure.pure (.predicate true w none)
        else (grammar n).type c) (.word subject :: .word "is" :: lexemes t.pieces) k
        (·.erased = (TypeTerm.predicate asserts subject (some t)).erased) := by
    intro k hk
    refine .sees true ?_ <| .anyWord <| .word <| (((hg.type c h hl).type (m := m)
      ?_).mono hk fun _ h => h).bind_pure fun t' ht' => ?_
    · refine .cons (.head (P := fun ts => ((Ahead.word "is").and Ahead.sameLine) ts)
        fun t ts ht hs => ?_) fun t ts ht _ hts => ?_
      · simp [Ahead.and, Ahead.word, Ahead.lexeme, Ahead.sameLine, ht, hs]
      · simp [Ahead.before, Ahead.reference, Ahead.wordThat, Ahead.lexeme, ht, hs, hts]
    · simp only [List.length_append, List.length_cons] at hn
      omega
    · simp [TypeTerm.erased, erasedOption, ht']
  have hfollow : ∀ ls ts, MayFollow c m (ls ++ .word subject :: .word "is" :: lexemes t.pieces)
      rest ts → MayFollow c m (lexemes t.pieces) rest ts := by
    intro ls ts hts
    rw [List.append_cons, List.append_cons] at hts
    exact hts.tail
  cases asserts with
  | true =>
    refine .takes ?_ (hreads _ (hfollow [.word "asserts"]))
    refine .cons (.head (P := fun ts => Ahead.reference ts) fun t ts ht _ => ?_)
      fun t ts ht _ hts => ?_
    · simp [Ahead.reference, Ahead.wordThat, Ahead.lexeme, ht, hs]
    · simp [Ahead.before, Ahead.word, Ahead.lexeme, ht, hts]
  | false =>
    refine .takes_not (.head fun t ts ht _ => ?_) (hreads _ (hfollow []))
    simp [Ahead.before, Ahead.word, Ahead.lexeme, ht, ha rfl]

/-- An assertion about a parameter. -/
theorem assertion_back {w : String} (hw : isReference w) {m : Nat} :
    Reads ((grammar n).result c) [.word "asserts", .word w]
      (MayFollow c m [.word "asserts", .word w] rest)
      (·.erased = (TypeTerm.predicate true w none).erased) := by
  have href : ∀ k, Shows (k := k) [.word w] fun ts => Ahead.reference ts :=
    fun k => .head fun t ts ht _ => by simp [Ahead.reference, Ahead.wordThat, Ahead.lexeme, ht, hw]
  refine .takes (.cons (href _) fun t ts ht _ hts => ?_) <| .sees false ?_ <|
    .anyWord (.pure rfl)
  · simp [Ahead.before, Ahead.word, Ahead.lexeme, ht, hts]
  · refine .cons (B := fun ts => Ahead.word "is" ts = false)
      (.nil fun ts hts => hts.word_eq_false (by simp)) fun t ts _ _ hts => ?_
    simp [Ahead.before, Ahead.and, hts]

theorem result_back (hg : g.Recalls) {t : TypeTerm} (h : g.result c ts = some (t, rest))
    (hl : t.legible) (hc : t.clear) ⦃m : Nat⦄ (hn : (lexemes t.pieces).length + m < n) :
    Reads ((grammar n).result c) (lexemes t.pieces) (MayFollow c m (lexemes t.pieces) rest)
      (·.erased = t.erased) := by
  have hreference : ∀ {u : Token} {us : List Token} {w : String}, u.lexeme = .word w →
      Ahead.reference (u :: us) → isReference w := by
    intro u us w hu h
    simpa [Ahead.reference, Ahead.wordThat, Ahead.lexeme, hu] using h
  rw [result, takes_bind] at h
  split at h
  · next hA =>
    rcases sees_ite_eq_some.1 h with ⟨ht, h⟩ | ⟨-, h⟩
    · obtain ⟨w, mid, hw, h⟩ := bind_eq_some.1 h
      obtain ⟨u, hts, hu, -⟩ := wordThat_eq_some.1 hw
      obtain ⟨_, _, -, -, h⟩ := word_bind_eq_some.1 h
      obtain ⟨t', mid', ht', e⟩ := bind_eq_some.1 h
      cases e
      rw [hts] at ht
      refine test_result_back hg ht' (by simpa [TypeTerm.legible, optionLegible] using hl)
        (hreference hu (Bool.and_eq_true_iff.1 ht).1) (fun e => by cases e) hn
    · obtain ⟨w, mid, hw, e⟩ := bind_eq_some.1 h
      cases e
      obtain ⟨u, hts, hu, -⟩ := wordThat_eq_some.1 hw
      refine assertion_back (@hreference u rest w hu ?_)
      rw [← hts]
      exact (Bool.and_eq_true_iff.1 hA).2
  · next hA =>
    rcases sees_ite_eq_some.1 h with ⟨ht, h⟩ | ⟨-, h⟩
    · obtain ⟨w, mid, hw, his⟩ := bind_eq_some.1 h
      obtain ⟨u, rfl, hu, -⟩ := wordThat_eq_some.1 hw
      obtain ⟨v, vs, rfl, hv, htype⟩ := word_bind_eq_some.1 his
      obtain ⟨t', mid', ht', e⟩ := bind_eq_some.1 htype
      cases e
      refine test_result_back hg ht' (by simpa [TypeTerm.legible, optionLegible] using hl)
        (hreference hu (Bool.and_eq_true_iff.1 ht).1) (fun _ e => hA ?_) hn
      subst e
      simp [Ahead.before, Ahead.word, Ahead.reference, Ahead.wordThat, Ahead.lexeme, hu, hv,
        isReference, reservedWords]
    · have hr := hg.type c h hl
      have hlooks : looksTested (lexemes t.pieces) = false := by
        simpa [TypeTerm.clear, hr.untested] using hc
      have hshows := (shows_not_test _ hr.opens hlooks).mono_next (j := MayFollow c m
        (lexemes t.pieces) rest) fun ts hts => hts.word_eq_false (by simp)
      exact .takes_not (hshows.mono fun _ h => h.1) <| .sees false (hshows.mono fun _ h => h.2) <|
        hr.type hn

/-! Annotations. -/

theorem annotation_back (hg : g.Recalls) {t? : Option TypeTerm}
    (h : g.annotation c ts = some (t?, rest)) (hl : optionLegible t?) (hk : Closes k)
    (hn : (lexemes (annotationPieces t?)).length < n) :
    Reads ( Grammar.annotation (grammar n) c) (.symbol ":" :: lexemes (annotationPieces t?)) k
      (fun u? => erasedAnnotated u? = erasedAnnotated t?) := by
  rcases given_eq_some.1 h with ⟨-, t, rfl, hcolon⟩ | ⟨-, rfl, -⟩
  · obtain ⟨_, us, -, -, ht⟩ := symbol_bind_eq_some.1 hcolon
    refine .given .symbol (.symbol ((hg.type c ht hl).type_closed hn hk)) fun u hu => ?_
    simp [erasedAnnotated, hu]
  · refine .given .symbol (.symbol (void_reads hk hn)) fun u hu => ?_
    simp [erasedAnnotated, hu]

theorem resultAnnotation_back (hg : g.Recalls) {t? : Option TypeTerm}
    (h : g.resultAnnotation ts = some (t?, rest)) (hl : resultLegible t?) (hk : Closes k)
    (hn : (lexemes (annotationPieces t?)).length < n) :
    Reads ( Grammar.resultAnnotation (grammar n)) (.symbol ":" :: lexemes (annotationPieces t?)) k
      (fun u? => erasedAnnotated u? = erasedAnnotated t?) := by
  rcases given_eq_some.1 h with ⟨-, t, rfl, hcolon⟩ | ⟨-, rfl, -⟩
  · obtain ⟨_, us, -, -, ht⟩ := symbol_bind_eq_some.1 hcolon
    rw [resultLegible, Bool.and_eq_true] at hl
    have hr := result_back hg ht hl.1 hl.2 (m := 0) hn
    refine .given .symbol (.symbol (hr.mono (fun ts hts => ?_) fun _ h => h)) fun u hu => ?_
    · obtain ⟨u, us, rfl, hu⟩ := hk ts hts
      exact follows_of_closes hu
    · simp [erasedAnnotated, hu]
  · have hshows := (shows_not_test [.word voidText] rfl rfl).mono_next (j := k)
      fun ts hts => by
        obtain ⟨u, us, rfl, hu⟩ := hk ts hts
        exact word_eq_false_of_closes hu (by simp)
    refine .given .symbol (.symbol (.takes_not (hshows.mono fun _ h => h.1) <|
      .sees false (hshows.mono fun _ h => h.2) <| void_reads hk hn)) fun u hu => ?_
    simp [erasedAnnotated, hu]

/-! Parameters. -/

theorem lexemes_named (name : String) (isOptional : Bool) (t? : Option TypeTerm) :
    lexemes (Parameter.named name isOptional t?).pieces =
      .word name :: .symbol ":" :: lexemes (annotationPieces t?) := by
  simp [Parameter.pieces]

theorem lexemes_rest (name : String) (t? : Option TypeTerm) :
    lexemes (Parameter.rest name t?).pieces =
      .symbol "..." :: .word name :: .symbol ":" :: lexemes (annotationPieces t?) := by
  simp [Parameter.pieces]

/-- A name is bound as it stands. -/
theorem binding_reads {name : String} (h : isBindable name) (hn : 0 < n) (d : Bool) :
    Reads ((grammar n).binding d) [.word name] k (· = .name name) := by
  obtain _ | n := n
  · omega
  have hrule (g : Grammar) : Reads (g.bindingRule d) [.word name] k (· = .name name) :=
    .offset fun _ => .takes_not .word_not_symbol <| .takes_not .word_not_symbol <|
      (Reads.wordThat_self h).bind_pure fun w hw => by rw [hw]
  exact fun ts rest hts hr => hrule _ hts hr

theorem undecorated_reads {l : Lexeme} {ls : List Lexeme} {f : Bool → Parse Parameter}
    {S : Parameter → Prop} (hne : l ≠ .symbol "@") (h : Reads (f false) (l :: ls) k S) :
    Reads (g.decorators >>= f) (l :: ls) k S := by
  intro ts rest hts hr
  obtain ⟨a, ha, e⟩ := h hts hr
  refine ⟨a, ha, bind_eq_some.2 ⟨false, _, decorators_of_not ?_, e⟩⟩
  obtain ⟨t, us, ⟨rfl, -⟩, -, rfl⟩ := laid_cons.1 hts
  simp [Ahead.symbol, Ahead.lexeme, hne]

/-- A parameter that takes the rest, at the end of the parameters. -/
theorem restParameter_reads (hg : g.Recalls) {name : String} {t? : Option TypeTerm}
    (hb : isBindable name) (ht : g.annotation c ts = some (t?, rest)) (hl : optionLegible t?)
    (hk : ∀ ts, k ts → Ahead.symbol ")" ts)
    (hn : (lexemes (annotationPieces t?)).length < n) :
    Reads ((grammar n).parameter c false)
      (.symbol "..." :: .word name :: .symbol ":" :: lexemes (annotationPieces t?)) k
      (·.erased = (Parameter.rest name t?).erased) := by
  refine undecorated_reads (by simp) <| .takes .symbol <| .offset fun _ => ?_
  refine (binding_reads hb (by omega) _).bind_cons
    (j := fun _ => True) (fun _ _ _ _ => trivial) fun b hb => ?_
  subst hb
  refine (annotation_back hg ht hl (fun ts hts => closes_symbol (by simp) ts (hk ts hts))
    hn).bind_nil fun u? hu => .sees true (.nil hk) <| .require rfl <| .pure ?_
  simp [Parameter.erased, hu]

/-- A parameter with a name of its own. -/
theorem namedParameter_reads (hg : g.Recalls) {name : String} {t? : Option TypeTerm}
    (hb : isBindable name) (ht : g.annotation c ts = some (t?, rest)) (hl : optionLegible t?)
    (hk : Closes k) (hn : (lexemes (annotationPieces t?)).length < n) (isOptional : Bool) :
    Reads ((grammar n).parameter c false)
      (.word name :: .symbol ":" :: lexemes (annotationPieces t?)) k
      (·.erased = (Parameter.named name isOptional t?).erased) := by
  refine undecorated_reads (by simp) <| .takes_not .word_not_symbol <| .sees false ?_ <|
    .require rfl ?_
  · refine .cons (B := fun ts => (Ahead.anyWord.or (Ahead.symbolIn ["[", "\x7b"])) ts = false)
      (.head fun t ts ht _ => ?_) fun t ts _ _ hts => ?_
    · simp [Ahead.or, Ahead.anyWord, Ahead.wordThat, Ahead.symbolIn, Ahead.lexeme, ht]
    · simp [modifiesParameter, Ahead.before, hts]
  refine (binding_reads hb (by omega) _).bind_cons
    (j := fun _ => True) (fun _ _ _ _ => trivial) fun b hb => ?_
  subst hb
  refine .takes_not (.symbol_ne (by simp)) ?_
  refine (annotation_back hg ht hl hk hn).bind_nil fun u? hu => ?_
  refine Reads.bind_nil (R := fun _ => True)
    (.takes_not (.nil fun ts hts => ?_) (.pure trivial)) fun _ _ => .pure ?_
  · obtain ⟨t, us, rfl, ht⟩ := hk ts hts
    exact symbol_eq_false_of_closes ht (by simp)
  · simp [Parameter.erased, hu]

/-- A parameter that takes the rest is read back at the end of the parameters only. -/
theorem parameter_back (hg : g.Recalls) {p : Parameter}
    (h : g.parameter c false ts = some (p, rest)) (hl : p.legible)
    (hk : ∀ ts, k ts → Ahead.symbol ")" ts ∨ Ahead.symbol "," ts ∧ Ahead.symbol "," rest)
    (hn : (lexemes p.pieces).length < n) :
    (∃ l ls, lexemes p.pieces = l :: ls ∧ l ≠ .symbol ")") ∧
      Reads ((grammar n).parameter c false) (lexemes p.pieces) k (·.erased = p.erased) := by
  have hcloses : Closes k := by
    intro ts hts
    obtain hs | ⟨hs, -⟩ := hk ts hts
    · exact closes_symbol (by simp) ts hs
    · exact closes_symbol (by simp) ts hs
  obtain ⟨_, mid, -, h⟩ := bind_eq_some.1 h
  rcases takes_ite_eq_some.1 h with ⟨-, h⟩ | ⟨-, h⟩
  · obtain ⟨start, mid₁, -, h⟩ := bind_eq_some.1 h
    obtain ⟨b, mid₂, hb, h⟩ := bind_eq_some.1 h
    obtain ⟨t?, mid₃, ht, h⟩ := bind_eq_some.1 h
    rw [sees_bind, require_bind] at h
    split at h
    case isFalse => cases h
    case isTrue hend =>
    cases b with
    | name name =>
      cases h
      rw [lexemes_rest] at hn ⊢
      simp only [List.length_cons] at hn
      refine ⟨⟨_, _, rfl, by simp⟩, restParameter_reads hg (hg.binding _ hb _ rfl) ht hl
        (fun ts hts => ?_) (by omega)⟩
      obtain hs | ⟨-, hs⟩ := hk ts hts
      · exact hs
      · rw [Ahead.symbol_of_symbol hs (by simp)] at hend
        cases hend
    | array o =>
      cases h
      simp [Parameter.legible] at hl
    | object o =>
      cases h
      simp [Parameter.legible] at hl
  · rw [sees_bind, require_bind] at h
    split at h
    case isFalse => cases h
    case isTrue =>
    obtain ⟨b, mid₁, hb, h⟩ := bind_eq_some.1 h
    obtain ⟨isOptional, mid₂, -, h⟩ := bind_eq_some.1 h
    obtain ⟨t?, mid₃, ht, h⟩ := bind_eq_some.1 h
    obtain ⟨_, mid₄, -, h⟩ := bind_eq_some.1 h
    cases b with
    | name name =>
      cases h
      rw [lexemes_named] at hn ⊢
      simp only [List.length_cons] at hn
      exact ⟨⟨_, _, rfl, by simp⟩, namedParameter_reads hg (hg.binding _ hb _ rfl) ht hl hcloses
        (by omega) isOptional⟩
    | array o =>
      cases h
      simp [Parameter.legible] at hl
    | object o =>
      cases h
      simp [Parameter.legible] at hl

theorem parameters_back (hg : g.Recalls) {ps : List Parameter}
    (h : g.parameters c ts = some (ps, rest)) (hl : parametersLegible ps)
    (hn : (lexemes (commaPieces (parametersPieces ps))).length < n) :
    Reads ((grammar n).parameters c)
      (.symbol "(" :: (lexemes (commaPieces (parametersPieces ps)) ++ [.symbol ")"])) k
      (fun qs => erasedParameters qs = erasedParameters ps) := by
  obtain ⟨_, us, -, -, h⟩ := symbol_bind_eq_some.1 h
  rw [parametersPieces_eq_map, lexemes_commaPieces_map] at hn ⊢
  have hlength : ∀ p ∈ ps, (lexemes p.pieces).length < n := fun p hp =>
    Nat.lt_of_le_of_lt (length_le_intercalate _
      (List.mem_map_of_mem (f := fun p : Parameter => lexemes p.pieces) hp)) hn
  have hlegible := parametersLegible_iff.1 hl
  have heach : ReadsEach ((grammar n).parameter c false) (fun p : Parameter => lexemes p.pieces)
      (fun ts => Ahead.symbol ")" ts) (fun ts => Ahead.symbol "," ts)
      (fun p q => q.erased = p.erased) ps := by
    obtain rfl | ⟨mid, hparted, -⟩ := commaList_parted h
    · trivial
    · exact hparted.readsEach
        (fun ts p mid hp hread hmid => (parameter_back hg hread (hlegible p hp)
          (fun ts hts => .inr ⟨hts, hmid⟩) (hlength p hp)).2)
        fun ts p hp hread => (parameter_back hg hread (hlegible p (List.mem_of_getLast? hp))
          (fun ts hts => .inl hts) (hlength p (List.mem_of_getLast? hp))).2
  have hne : ∀ p ∈ ps, ∃ l ls, lexemes p.pieces = l :: ls ∧ l ≠ .symbol ")" := by
    intro p hp
    obtain rfl | ⟨mid, hparted, -⟩ := commaList_parted h
    · cases hp
    · obtain ⟨ts, mid, hread⟩ := hparted.forall p hp
      exact (parameter_back (k := fun ts => Ahead.symbol ")" ts) hg hread (hlegible p hp)
        (fun ts hts => .inl hts) (hlength p hp)).1
  refine .symbol ((heach.commaList (by simp) hne).mono (fun _ h => h) fun qs hqs => ?_)
  rw [erasedParameters_eq_map, erasedParameters_eq_map, map_eq_of_forall₂ hqs]

end Grammar
end ApiSurface.Source
