import ApiSurface.Proofs.PrimaryTypes

/-! Arrays, indexed types, operators and inferred types are read back. Brackets behind a type belong
to it in the text if they did in the source; and a bound that follows an inferred type without one
is the condition of a type around it. -/
namespace ApiSurface.Source
open Parse Piece

/-- An operand of a union that is read back where the source had leave for a condition, or not. -/
structure RecalledPart (c : Bool) (rule : Nat → Parse TypeTerm) (t : TypeTerm) (rest : List Token) :
    Prop where
  back : ReadsBack c rule t rest
  operand : OpensOperand (lexemes t.pieces)
  untested : t.tests = false

namespace Grammar

variable {g : Grammar} {ts rest : List Token} {n : Nat} {k : List Token → Prop} {t : TypeTerm}
  {c : Bool}

/-! Brackets behind a type. -/

/-- A type with brackets behind it is read back by growing from the type in front. -/
structure Suffixed (ts : List Token) (t : TypeTerm) (rest : List Token) : Prop where
  grows : ∀ ⦃c m n⦄, (lexemes t.pieces).length + m ≤ n → ∀ ⦃us vs⦄,
    Laid (lexemes t.pieces) us → MayFollow c m (lexemes t.pieces) rest vs →
    ∃ t₀ mid t', (grammar n).primaryType (us ++ vs) = some (t₀, mid) ∧
      Grows (grammar n).suffix t₀ mid t' vs ∧ t'.erased = t.erased
  operand : OpensOperand (lexemes t.pieces)
  untested : t.tests = false
  leads : ∀ w ls, lexemes t.pieces = .word w :: ls → Ahead.word w ts

theorem suffixed_of_primary (h : RecalledOperand (fun n => (grammar n).primaryType) ts t rest) :
    Suffixed ts t rest := by
  refine { h with grows := fun c m n hn us vs hus hvs => ?_ }
  obtain ⟨t', ht', e⟩ := h.back c hn hus hvs
  exact ⟨t', vs, t', e, .done, ht'⟩

/-- Another pair of brackets, which stood on the same line in the source. -/
theorem Suffixed.append {mid : List Token} {t' : TypeTerm} (inner : List Lexeme)
    (h : Suffixed ts t mid) (hb : (Ahead.symbol "[").and Ahead.sameLine mid)
    (hls : lexemes t'.pieces = lexemes t.pieces ++ .symbol "[" :: inner)
    (hends : EndsGroup inner) (ht : t'.tests = false)
    (hread : ∀ u n, inner.length ≤ n → u.erased = t.erased → ∀ k,
      Reads ((grammar n).suffix u) (.symbol "[" :: inner) k
        (∃ u', u'.erased = t'.erased ∧ · = some u')) : Suffixed ts t' rest := by
  refine ⟨fun c m n hn us vs hus hvs => ?_, ?_, ht, fun w ls e => ?_⟩
  · rw [hls] at hn hus
    rw [List.length_append, List.length_cons] at hn
    obtain ⟨us₁, us₂, h₁, h₂, rfl⟩ := laid_append.1 hus
    have hfollows : MayFollow c 0 (lexemes t.pieces) mid (us₂ ++ vs) := by
      obtain ⟨u, us, ⟨hu, -⟩, -, rfl⟩ := laid_cons.1 h₂
      exact follows_of_bracket hu hb
    obtain ⟨t₀, mid', u, hprimary, hgrows, hu⟩ :=
      h.grows (n := n) (by omega) h₁ hfollows
    obtain ⟨_, ⟨u', hu', rfl⟩, e⟩ := hread u n (by omega) hu (fun _ => True) h₂ (r := vs) trivial
    refine ⟨t₀, mid', u', by rw [List.append_assoc, hprimary], hgrows.concat e ?_, hu'⟩
    have := h₂.length_eq
    rw [List.length_cons] at this
    rw [List.length_append]
    omega
  · rw [hls]
    exact h.operand.append_symbol (by simp [afterName]) fun _ => hends
  · obtain ⟨l, ls', hcons⟩ := exists_cons_of_opensType h.operand.opens
    rw [hls, hcons] at e
    cases e
    exact h.leads w ls' hcons

theorem suffixed_of_suffix (hg : g.Recalls) {u : TypeTerm} {mid : List Token}
    (h : Suffixed ts u mid) (hs : g.suffix u mid = some (some t, rest)) (hl : t.legible) :
    Suffixed ts t rest := by
  rcases takes_ite_eq_some.1 hs with ⟨hb, hs⟩ | ⟨-, hs⟩
  · have hbracket : ∀ (ls : List Lexeme) (k : List Token → Prop), Shows (.symbol "[" :: ls) k
        fun ts => ((Ahead.symbol "[").and Ahead.sameLine) ts :=
      fun _ _ => .head fun t ts ht hs => by
        simp [Ahead.and, Ahead.symbol, Ahead.sameLine, Ahead.lexeme, ht, hs]
    rcases takes_ite_eq_some.1 hs with ⟨-, hs⟩ | ⟨-, hs⟩
    · cases hs
      refine h.append [.symbol "]"] hb (by simp [TypeTerm.pieces])
        ⟨[], "]", [], rfl, by simp, fun _ => rfl, by simp⟩ rfl
        fun u' n _ hu k => .takes (hbracket _ _) <| .takes .symbol <| .pure ⟨_, ?_, rfl⟩
      simp [TypeTerm.erased, hu]
    · obtain ⟨i, mid', hi, hs⟩ := bind_eq_some.1 hs
      obtain ⟨_, _, -, -, hs⟩ := symbol_bind_eq_some.1 hs
      cases hs
      rw [TypeTerm.legible, Bool.and_eq_true] at hl
      have hr := hg.type true hi hl.2
      refine h.append (lexemes i.pieces ++ [.symbol "]"]) hb
        (by simp [TypeTerm.pieces]) (endsGroup_of_balanced i.balanced (by simp)) rfl
        fun u' n hn hu k => .takes (hbracket _ _) ?_
      rw [List.length_append, List.length_singleton] at hn
      refine .takes_not ?_ <| (hr.type_closed (by omega) (closes_symbol (s := "]")
        (by simp))).bind .symbol fun i' hi' => .symbol <| .pure ⟨_, ?_, rfl⟩
      · obtain ⟨l, ls, hls, hne⟩ := ne_symbol_of_opensType hr.opens (s := "]") (by simp)
        rw [hls]
        exact .head fun t ts ht _ => by simp [Ahead.symbol, Ahead.lexeme, ht, hne]
      · simp [TypeTerm.erased, hu, hi']
  · cases hs

/-- A type is legible if it is with brackets behind it. -/
theorem legible_of_suffix {u : TypeTerm} {mid : List Token}
    (h : g.suffix u mid = some (some t, rest)) (hl : t.legible) : u.legible := by
  rcases takes_ite_eq_some.1 h with ⟨-, h⟩ | ⟨-, h⟩
  · rcases takes_ite_eq_some.1 h with ⟨-, h⟩ | ⟨-, h⟩
    · cases h
      exact hl
    · obtain ⟨i, mid', -, h⟩ := bind_eq_some.1 h
      obtain ⟨_, _, -, -, h⟩ := symbol_bind_eq_some.1 h
      cases h
      rw [TypeTerm.legible, Bool.and_eq_true] at hl
      exact hl.1
  · cases h

theorem suffixed_of_grows (hg : g.Recalls) {u : TypeTerm} {mid : List Token}
    (h : Grows g.suffix u mid t rest) (hu : u.legible → Suffixed ts u mid) (hl : t.legible) :
    Suffixed ts t rest := by
  induction h with
  | done => exact hu hl
  | more hstep _ _ ih =>
    exact ih (fun hb => suffixed_of_suffix hg (hu (legible_of_suffix hstep hb)) hstep hb) hl

theorem suffixedType_back (hg : g.Recalls) (h : g.suffixedType ts = some (t, rest))
    (hl : t.legible) : RecalledOperand (fun n => (grammar n).suffixedType) ts t rest := by
  obtain ⟨u, mid, hu, h⟩ := bind_eq_some.1 h
  obtain ⟨mid', hgrows, hstop⟩ := grows_of_grow h
  have hs := suffixed_of_grows hg hgrows
    (fun hb => suffixed_of_primary (primaryType_back hg hu hb)) hl
  obtain ⟨rfl, hend⟩ : mid' = rest ∧ ((Ahead.symbol "[").and Ahead.sameLine) mid' = false := by
    rcases takes_ite_eq_some.1 hstop with ⟨-, hstop⟩ | ⟨hb, hstop⟩
    · rcases takes_ite_eq_some.1 hstop with ⟨-, hstop⟩ | ⟨-, hstop⟩
      · cases hstop
      · obtain ⟨_, _, -, hstop⟩ := bind_eq_some.1 hstop
        obtain ⟨_, _, -, -, hstop⟩ := symbol_bind_eq_some.1 hstop
        cases hstop
    · cases hstop
      exact ⟨rfl, hb⟩
  refine { hs with back := fun c m n hn us vs hus hvs => ?_ }
  obtain ⟨t₀, mid, t', hprimary, hgrows, ht'⟩ := hs.grows hn hus hvs
  refine ⟨t', ht', bind_eq_some.2 ⟨t₀, mid, hprimary, grow_of_grows hgrows ?_⟩⟩
  rw [suffix, takes_bind, if_neg]
  · rfl
  · intro hb
    rw [hvs.bracket (Bool.and_eq_true_iff.1 hb).1] at hend
    cases hend

/-! Operators and inferred types. -/

theorem leavesType_of_opensType {ls : List Lexeme} (h : opensType ls) : leavesType ls := by
  obtain ⟨l, ls, rfl⟩ := exists_cons_of_opensType h
  cases l with
  | word w => cases ls with
    | nil => rfl
    | cons l ls => cases l <;> simp_all [opensType, leavesType]
  | symbol s =>
    simp only [opensType, List.contains_iff_mem, List.mem_cons, List.not_mem_nil, or_false] at h
    rcases h with rfl | rfl | rfl | rfl <;> rfl
  | _ => rfl

theorem operator_back (hg : g.Recalls) {o : TypeOperator}
    (h : g.typeOperand c ts = some (t, rest)) (hl : t.legible) :
    RecalledPart c (fun n => (grammar n).typeOperandRule c) (.operator o t) rest := by
  have hr := hg.operand c h hl
  have hls : lexemes (TypeTerm.operator o t).pieces = .word o.word :: lexemes t.pieces := by
    simp [TypeTerm.pieces]
  refine ⟨fun m n hn => ?_, ?_, rfl⟩
  · rw [hls] at hn ⊢
    rw [List.length_cons] at hn
    obtain _ | n := n
    · omega
    have hoperator : Reads takesOperator [.word o.word] (fun _ => True) (· = some o) := by
      refine .sees true (.head fun t ts ht _ => ?_) <|
        (Reads.wordThat_self (w := o.word) rfl).bind_pure fun w hw => ?_
      · simp [Ahead.wordThat, Ahead.lexeme, ht, TypeOperator.ofWord?_word]
      · rw [hw, TypeOperator.ofWord?_word]
    refine (hoperator.bind_cons (fun _ _ _ _ => trivial) ?_)
    rintro _ rfl
    refine ((hr.back (m := m) (n := n) (by omega)).mono (fun ts hts => ?_)
      fun _ h => h).map fun t' ht' => ?_
    · exact hts.tail [.word o.word]
    · simp [TypeTerm.erased, ht']
  · rw [hls]
    exact opensOperand_of_word (leavesType_of_opensType hr.opens) (.of_word hr.grouped.first)
      (by cases o <;> decide) fun e => by cases o <;> simp [TypeOperator.word] at e

/-- An inferred type, with the bound that is read behind its name. -/
theorem infer_reads {name : String} {k : List Token → Prop} {S : TypeTerm → Prop}
    (ls : List Lexeme)
    (h : Reads (attempt (g.inferredBound c)) ls k fun b => S (.infer name b)) :
    Reads (g.typeOperandRule c) (.word "infer" :: .word name :: ls) k S := by
  have hoperator : Reads takesOperator [] (fun ts => Ahead.word "infer" ts) (· = none) := by
    refine .sees false (.nil fun ts hts => ?_) (.pure rfl)
    obtain ⟨t, us, rfl, ht⟩ := Ahead.word_iff.1 hts
    simp [Ahead.wordThat, Ahead.lexeme, ht, TypeOperator.ofWord?, TypeOperator.word]
  refine hoperator.bind_of_nil .word ?_
  rintro _ rfl
  exact .takes .word <| .anyWord <| h.bind_pure fun _ hb => hb

/-- Where no bound was read, what follows the text is none. -/
theorem inferredBound_refuses {name : String} {m n : Nat} {vs : List Token}
    (h : MayFollow c m [.word "infer", .word name] rest vs) (hn : m ≤ n) :
    (grammar n).inferredBound c vs = none := by
  by_contra hne
  obtain ⟨r, hr⟩ := Option.ne_none_iff_exists'.1 hne
  obtain ⟨v, vs', rfl, hv, -⟩ := word_bind_eq_some.1 hr
  have hextends : Ahead.word "extends" (v :: vs') := Ahead.word_iff.2 ⟨v, vs', rfl, hv⟩
  cases c with
  | true => exact hne (h.bound hextends n hn)
  | false =>
    have := h.closed rfl hextends
    simp [endsInfer] at this

theorem infer_back (hg : g.Recalls) {name : String} {bound : Option TypeTerm}
    (h : attempt (g.inferredBound c) ts = some (bound, rest))
    (hl : (TypeTerm.infer name bound).legible) :
    RecalledPart c (fun n => (grammar n).typeOperandRule c) (.infer name bound) rest := by
  rcases attempt_eq_some.1 h with ⟨b, rfl, hbound⟩ | ⟨rfl, hnone, rfl⟩
  · obtain ⟨_, us, -, -, hbound⟩ := word_bind_eq_some.1 hbound
    obtain ⟨b', mid, hb, hbound⟩ := bind_eq_some.1 hbound
    rw [sees_bind, require_bind] at hbound
    split at hbound
    case isFalse => cases hbound
    case isTrue hquestion =>
    cases hbound
    rw [TypeTerm.legible, Bool.and_eq_true, Bool.not_eq_true'] at hl
    have hr := hg.type false hb hl.1
    have hls : lexemes (TypeTerm.infer name (some b)).pieces =
        [.word "infer", .word name, .word "extends"] ++ lexemes b.pieces := by
      simp [TypeTerm.pieces, behindPieces]
    refine ⟨fun m n hn => ?_, ?_, rfl⟩
    · rw [hls] at hn ⊢
      simp only [List.length_append, List.length_cons] at hn
      refine infer_reads _ (Reads.attempt (R := (·.erased = b.erased)) (.word ?_) fun b' hb' => ?_)
      · refine ((hr.type (m := m) (n := n) (by omega)).mono (fun ts hts => ?_)
          fun _ h => h).bind_nil fun b' hb' us vs hus hvs => ?_
        · exact { hts.tail [.word "infer", .word name, .word "extends"] with
            closed := fun _ _ => hl.2 }
        · obtain rfl := laid_nil.1 hus
          refine ⟨b', hb', ?_⟩
          rw [List.nil_append, sees_bind, require_bind, if_pos]
          · rfl
          · by_contra hq
            simp only [Bool.not_eq_true, Bool.not_eq_false', Bool.and_eq_true] at hq
            simp [hq.1, hvs.question hq.2] at hquestion
      · simp [TypeTerm.erased, erasedOption, hb']
    · rw [hls]
      exact opensOperand_of_word rfl (.of_word (by simp)) (by simp) (by simp)
  · have hls : lexemes (TypeTerm.infer name none).pieces = [.word "infer", .word name] := rfl
    refine ⟨fun m n hn => ?_, ?_, rfl⟩
    · rw [hls] at hn ⊢
      refine infer_reads [] fun us vs hus hvs => ?_
      obtain rfl := laid_nil.1 hus
      refine ⟨none, rfl, ?_⟩
      rw [List.nil_append, attempt, inferredBound_refuses hvs (by omega)]
    · rw [hls]
      exact opensOperand_of_word rfl (.of_word (by simp)) (by simp) (by simp)

theorem typeOperandRule_back (hg : g.Recalls) (h : g.typeOperandRule c ts = some (t, rest))
    (hl : t.legible) : RecalledPart c (fun n => (grammar n).typeOperandRule c) t rest := by
  obtain ⟨o?, mid, ho, hrule⟩ := bind_eq_some.1 h
  cases o? with
  | some o =>
    obtain ⟨t', mid', ht, e⟩ := map_eq_some.1 hrule
    cases e
    exact operator_back hg ht hl
  | none =>
    obtain ⟨rfl, hword⟩ : mid = ts ∧
        ∀ w, Ahead.word w ts → TypeOperator.ofWord? w = none := by
      rcases sees_ite_eq_some.1 ho with ⟨hw, hread⟩ | ⟨hw, hread⟩
      · obtain ⟨w, mid', hread, hpure⟩ := bind_eq_some.1 hread
        obtain ⟨u, rfl, hu, -⟩ := wordThat_eq_some.1 hread
        obtain ⟨hnone, -⟩ := Prod.ext_iff.1 (pure_eq_some.1 hpure)
        dsimp only at hnone
        simp [Ahead.wordThat, Ahead.lexeme, hu, hnone] at hw
      · cases hread
        refine ⟨rfl, fun w hts => ?_⟩
        obtain ⟨u, us, rfl, hu⟩ := Ahead.word_iff.1 hts
        simpa [Ahead.wordThat, Ahead.lexeme, hu] using hw
    rcases takes_ite_eq_some.1 hrule with ⟨-, hrule⟩ | ⟨hinfer, hrule⟩
    · obtain ⟨name, mid', -, hrule⟩ := bind_eq_some.1 hrule
      obtain ⟨bound, mid'', hbound, e⟩ := bind_eq_some.1 hrule
      cases e
      exact infer_back hg hbound hl
    · have hr := suffixedType_back hg hrule hl
      refine ⟨fun m n hn => operand_of_suffixed (hr.back c hn) ?_ fun w ls e => ?_,
        hr.operand, hr.untested⟩
      · obtain ⟨l, ls, e⟩ := exists_cons_of_opensType hr.operand.opens
        simp [e]
      · have hw := hr.leads w ls e
        refine ⟨hword w hw, ?_⟩
        rintro rfl
        rw [hw] at hinfer
        cases hinfer

end Grammar
end ApiSurface.Source
