import ApiSurface.Proofs.Rereading

/-! From tight types to loose ones. A rule reads what a tighter one reads, if what follows does not
go on with it; and joined types are read back if their parts are. -/
namespace ApiSurface.Source
open Parse Piece

namespace Grammar

variable {g : Grammar} {ls : List Lexeme} {k : List Token → Prop} {S : TypeTerm → Prop} {c : Bool}

/-! One level up. -/

theorem suffixedType_of_primary (h : Reads g.primaryType ls k S)
    (hk : ∀ ts, k ts → ((Ahead.symbol "[").and Ahead.sameLine) ts = false) :
    Reads g.suffixedType ls k S := by
  refine h.bind_nil fun t ht ts rest hts hr => ?_
  obtain rfl := laid_nil.1 hts
  refine ⟨t, ht, grow_of_grows .done ?_⟩
  rw [suffix, takes_bind, if_neg (by simp [hk rest hr])]
  rfl

theorem operand_of_suffixed (h : Reads g.suffixedType ls k S) (hne : ls ≠ [])
    (hw : ∀ w ls', ls = .word w :: ls' → TypeOperator.ofWord? w = none ∧ w ≠ "infer") :
    Reads (g.typeOperandRule c) ls k S := by
  have hoperator : Reads takesOperator [] (fun ts => ∃ t us, ts = t :: us ∧
      ∀ w, t.lexeme = .word w → TypeOperator.ofWord? w = none) (· = none) := by
    refine .sees false (.nil fun ts hts => ?_) (.pure rfl)
    obtain ⟨t, us, rfl, ht⟩ := hts
    unfold Ahead.wordThat Ahead.lexeme
    dsimp only
    split
    · next w hw => rw [ht w hw]; rfl
    · rfl
  obtain ⟨l, ls, rfl⟩ := List.exists_cons_of_ne_nil hne
  refine hoperator.bind_of_nil (.head fun t ts ht _ => ⟨t, ts, rfl, fun w e => ?_⟩) ?_
  · exact (hw w ls (by rw [← ht, e])).1
  · rintro _ rfl
    refine .takes_not (.head fun t ts ht _ => ?_) h
    simp only [Ahead.word, Ahead.lexeme, ht, beq_eq_false_iff_ne]
    rintro rfl
    exact (hw _ ls rfl).2 rfl

theorem joined_of_part {join : String} {whole : List TypeTerm → TypeTerm} {part : Parse TypeTerm}
    (h : Reads part ls k S) (hls : ∃ l ls', ls = l :: ls' ∧ l ≠ .symbol join)
    (hk : ∀ ts, k ts → Ahead.symbol join ts = false) : Reads (joined join whole part) ls k S := by
  obtain ⟨l, ls, rfl, hl⟩ := hls
  refine .takes_not (.head fun t ts ht _ => by simp [Ahead.symbol, Ahead.lexeme, ht, hl]) ?_
  have heach : ReadsEach part (fun _ => l :: ls) k (fun ts => Ahead.symbol join ts)
      (fun (_ : Unit) t => S t) [()] := ⟨h, trivial⟩
  have hsep := heach.separated (by simp) hk
  rw [List.map_singleton, List.intercalate_singleton] at hsep
  refine hsep.bind_nil fun ts hts => ?_
  obtain ⟨t, ht, rfl⟩ : ∃ t, S t ∧ ts = [t] := by
    cases hts with
    | cons h hs => cases hs; exact ⟨_, h, rfl⟩
  exact .pure ht

/-! Patterns. -/

/-- Items up to a closing symbol take a whole group of brackets. -/
theorem commaList_group {α : Type} [Placed α] {item : Parse α} {close : String}
    {ts rest : List Token} {as : List α} (hi : Follows (.inPlace none) false [] [] item item)
    (h : commaList close item ts = some (as, rest)) :
    ∃ inner c, ts = inner ++ c :: rest ∧ c.lexeme = .symbol close ∧
      brackets [] inner = some [] := by
  obtain ⟨items, mid, hitems, h⟩ := bind_eq_some.1 h
  obtain ⟨c, rest', rfl, hc, h⟩ := symbol_bind_eq_some.1 h
  cases h
  let step : Parse α := do
    let a ← item
    if ← sees (Ahead.symbol close) then pure a
    else do
      symbol ","
      pure a
  have hstep : Follows (.inPlace none) false [] [] step step :=
    Follows.bind hi fun _ => Follows.ifSees (by simp) Follows.pure <|
      Follows.bind (Follows.symbol rfl) fun _ => Follows.pure
  have hduring : Follows (.inPlace none) false [] [] (during (Ahead.symbol close).not step)
      (during (Ahead.symbol close).not step) := Follows.during (by simp) hstep
  obtain ⟨inner, rfl, hinner⟩ := hduring.balances hitems
  exact ⟨inner, c, rfl, hc, hinner⟩

/-- A pattern takes a whole group of brackets. -/
def BindsGroups (g : Grammar) : Prop :=
  ∀ ⦃ts rest : List Token⦄ ⦃b : Binding⦄, g.binding false ts = some (b, rest) →
    Ahead.symbolIn ["[", "\x7b"] ts → ∃ t inner c, ts = t :: (inner ++ c :: rest) ∧
      (∃ s ∈ ["]", "\x7d"], c.lexeme = .symbol s) ∧ brackets [] inner = some []

theorem grammar_bindsGroups (n : Nat) : (grammar n).BindsGroups := by
  intro ts rest b h hs
  obtain _ | n := n
  · cases h
  have hg : Agree (.inPlace none) ((grammar n).nested ts) ((grammar n).nested ts) :=
    (agree_inPlace n).within _ _
  change ((grammar n).nested ts).bindingRule false ts = _ at h
  generalize (grammar n).nested ts = g at h hg
  obtain _ | ⟨t, ts⟩ := ts
  · cases h
  obtain ⟨start, mid, ho, h⟩ := bind_eq_some.1 h
  cases ho
  rcases takes_ite_eq_some.1 h with ⟨-, h⟩ | ⟨hsquare, h⟩
  · obtain ⟨as, mid, has, e⟩ := bind_eq_some.1 h
    cases e
    obtain ⟨inner, c, e, hc, hinner⟩ := commaList_group (Follows.arrayBinding hg false) has
    exact ⟨t, inner, c, congrArg _ e, ⟨_, by simp, hc⟩, hinner⟩
  rcases takes_ite_eq_some.1 h with ⟨-, h⟩ | ⟨hcurly, -⟩
  · obtain ⟨as, mid, has, e⟩ := bind_eq_some.1 h
    cases e
    obtain ⟨inner, c, e, hc, hinner⟩ := commaList_group (Follows.objectBinding hg false) has
    exact ⟨t, inner, c, congrArg _ e, ⟨_, by simp, hc⟩, hinner⟩
  · exfalso
    revert hs hsquare hcurly
    cases hl : t.lexeme <;> simp [Ahead.symbolIn, Ahead.symbol, Ahead.lexeme, hl]
    tauto

/-- A group of brackets ends in one place only. -/
theorem group_unique {inner inner' rest rest' : List Token} {c c' : Token} {s s' : String}
    (h : inner ++ c :: rest = inner' ++ c' :: rest') (hi : brackets [] inner = some [])
    (hi' : brackets [] inner' = some []) (hs : s ∈ ["]", "\x7d"]) (hc : c.lexeme = .symbol s)
    (hs' : s' ∈ ["]", "\x7d"]) (hc' : c'.lexeme = .symbol s') : rest = rest' := by
  have hnone : ∀ {c : Token} {s : String} {outer : List Token} {inner : List Token},
      s ∈ ["]", "\x7d"] → c.lexeme = .symbol s → brackets [] inner = some [] →
      brackets [] (inner ++ c :: outer) = none := by
    intro c s outer inner hs hc hi
    rw [brackets_append, hi, Option.bind_some, brackets, hc]
    simp only [List.mem_cons, List.not_mem_nil, or_false] at hs
    rcases hs with rfl | rfl <;> rfl
  obtain ⟨ms, rfl, e⟩ | ⟨ms, rfl, e⟩ := List.append_eq_append_iff.1 h
  · cases ms with
    | nil => exact (List.cons.inj e).2
    | cons m ms =>
      obtain ⟨rfl, -⟩ := List.cons.inj e
      rw [hnone hs hc hi] at hi'
      cases hi'
  · cases ms with
    | nil => exact (List.cons.inj e).2.symm
    | cons m ms =>
      obtain ⟨rfl, -⟩ := List.cons.inj e
      rw [hnone hs' hc' hi'] at hi
      cases hi

/-! Brackets around a type are not taken for those around parameters. -/

/-- How a rule goes on behind a bracket and a modifier to tell whether parameters stand here. -/
def behindModifier (g : Grammar) : Parse Bool := do
  if ← sees (Ahead.symbolIn ["[", "\x7b"]) then
    let _ ← g.binding false
  else
    let _ ← anyWord
  if ← takesSymbol ")" then sees (Ahead.symbol "=>")
  else sees (Ahead.symbolIn [":", ",", "?", "="])

/-- A bracket closes, and no arrow stands behind it. -/
def ClosesPlainly (ts : List Token) : Prop :=
  Ahead.symbol ")" ts ∧ Ahead.symbol "=>" ts.tail = false

/-- What stands behind a name or a pattern makes no parameter of it. -/
def BehindType (ts : List Token) : Prop :=
  ClosesPlainly ts ∨ Ahead.symbol ")" ts = false ∧ Ahead.symbolIn [":", ",", "?", "="] ts = false

theorem behindType_of_afterName {ls : List Lexeme}
    (h : ∀ s ls', ls = .symbol s :: ls' → s ∉ afterName) : Shows ls ClosesPlainly BehindType := by
  cases ls with
  | nil => exact .nil fun ts hts => .inl hts
  | cons l ls =>
    refine .head fun t ts ht _ => .inr ?_
    cases l with
    | symbol s =>
      have hs := h s ls rfl
      simp only [afterName, List.mem_cons, List.not_mem_nil, or_false, not_or] at hs
      simp [Ahead.symbolIn, Ahead.symbol, Ahead.lexeme, ht, hs]
    | _ => simp [Ahead.symbolIn, Ahead.symbol, Ahead.lexeme, ht]

theorem not_named_behind {mid rest : List Token} (hmid : BehindType mid) :
    (takesSymbol ")" >>= fun closed => if closed then sees (Ahead.symbol "=>")
      else sees (Ahead.symbolIn [":", ",", "?", "="])) mid ≠ some (true, rest) := by
  intro h
  rcases takes_ite_eq_some.1 h with ⟨hs, h⟩ | ⟨hs, h⟩
  · obtain ⟨-, harrow⟩ := hmid.resolve_right (by simp [hs])
    simp [harrow] at h
  · obtain ⟨hclose, -⟩ | ⟨-, hafter⟩ := hmid
    · rw [hs] at hclose
      cases hclose
    · simp [hafter] at h

/-- A word is no name of a parameter. -/
theorem not_named_of_word {w : String} {ls : List Lexeme}
    (h : ∀ s ls', ls = .symbol s :: ls' → s ∉ afterName) :
    Shows (.word w :: ls) ClosesPlainly
      fun ts => ∀ rest, g.behindModifier ts ≠ some (true, rest) := by
  refine .cons (behindType_of_afterName h) fun t ts ht _ hts rest hnamed => ?_
  rcases sees_ite_eq_some.1 hnamed with ⟨hs, -⟩ | ⟨-, hnamed⟩
  · simp [Ahead.symbolIn, Ahead.lexeme, ht] at hs
  obtain ⟨_, mid, hw, hnamed⟩ := bind_eq_some.1 hnamed
  obtain ⟨_, e, -, -⟩ := wordThat_eq_some.1 hw
  cases e
  exact not_named_behind hts hnamed

/-- Brackets of a type are no pattern of a parameter. -/
theorem not_named_of_group (hg : g.BindsGroups) {s : String} {ls : List Lexeme} (h : EndsGroup ls)
    (hs : s ∈ ["[", "\x7b"]) : Shows (.symbol s :: ls) ClosesPlainly
      fun ts => ∀ rest, g.behindModifier ts ≠ some (true, rest) := by
  obtain ⟨inner, c, outer, rfl, hc, hi, ho⟩ := h
  intro ts rest' hts hr rest hnamed
  obtain ⟨t, us, ⟨ht, -⟩, hus, rfl⟩ := laid_cons.1 hts
  obtain ⟨us₁, us₂, hus₁, hus₂, rfl⟩ := laid_append.1 hus
  obtain ⟨v, vs, ⟨hv, -⟩, hvs, rfl⟩ := laid_cons.1 hus₂
  have hopens : Ahead.symbolIn ["[", "\x7b"] (t :: (us₁ ++ v :: vs ++ rest')) := by
    simpa [Ahead.symbolIn, Ahead.lexeme, ht] using hs
  rcases sees_ite_eq_some.1 hnamed with ⟨-, hnamed⟩ | ⟨hno, -⟩
  · obtain ⟨b, mid, hb, hnamed⟩ := bind_eq_some.1 hnamed
    obtain ⟨t', inner', c', e, ⟨s', hs', hc'⟩, hinner'⟩ := hg hb hopens
    obtain ⟨-, e⟩ := List.cons.inj (List.cons_append.symm.trans e)
    rw [List.append_assoc, List.cons_append] at e
    have hinner : brackets [] us₁ = some [] := by
      rw [brackets_eq_nests, hus₁.map_lexeme]
      exact hi []
    obtain rfl := group_unique e hinner hinner' hc hv hs' hc'
    exact not_named_behind (behindType_of_afterName ho hvs hr) hnamed
  · rw [List.cons_append, hopens] at hno
    cases hno

/-- What is neither a word nor a bracket is no name. -/
theorem not_named_of_symbol {t : Token} {ts rest : List Token} (ht : ∀ w, t.lexeme ≠ .word w)
    (hs : Ahead.symbolIn ["[", "\x7b"] (t :: ts) = false) :
    g.behindModifier (t :: ts) ≠ some (true, rest) := by
  intro h
  rcases sees_ite_eq_some.1 h with ⟨hs', -⟩ | ⟨-, h⟩
  · rw [hs] at hs'
    cases hs'
  obtain ⟨_, mid, hw, h⟩ := bind_eq_some.1 h
  obtain ⟨_, e, ht', -⟩ := wordThat_eq_some.1 hw
  cases e
  exact ht _ ht'

/-- The tokens of a type in brackets, in front of the closing one and of no arrow. -/
theorem not_named_of_opensType (hg : g.BindsGroups) {inner : List Lexeme} (hi : opensType inner)
    (hp : Grouped inner) : Shows inner ClosesPlainly fun ts =>
      Ahead.symbolIn [")", "..."] ts = false ∧
        ∀ rest, (takes modifiesParameter >>= fun _ => g.behindModifier) ts ≠ some (true, rest) := by
  obtain ⟨l, ls, rfl⟩ := exists_cons_of_opensType hi
  intro ts rest' hts hr
  obtain ⟨t, us, ⟨rfl, hline⟩, hus, rfl⟩ := laid_cons.1 hts
  -- What does not modify is looked at as it stands.
  have hplain (h : modifiesParameter (t :: (us ++ rest')) = false)
      (hno : ∀ rest, g.behindModifier (t :: (us ++ rest')) ≠ some (true, rest))
      (rest : List Token) :
      (takes modifiesParameter >>= fun _ => g.behindModifier) (t :: us ++ rest') ≠
        some (true, rest) := by
    rw [List.cons_append, takes_bind, if_neg (by simp [h])]
    exact hno rest
  cases hl : t.lexeme with
  | word w =>
    rw [hl] at hi hp hts
    refine ⟨by simp [Ahead.symbolIn, Ahead.lexeme, hl], fun rest => ?_⟩
    by_cases hm : modifiesParameter (t :: (us ++ rest'))
    · rw [List.cons_append, takes_bind, if_pos hm, List.tail_cons]
      simp only [modifiesParameter, Ahead.before, List.tail_cons, Bool.and_eq_true] at hm
      -- A modifier: a word behind it is no name, and brackets are no pattern.
      obtain _ | ⟨l', ls⟩ := ls
      · obtain rfl := laid_nil.1 hus
        obtain ⟨c, rest', rfl, hc⟩ := Ahead.symbol_iff.1 hr.1
        simp [Ahead.or, Ahead.anyWord, Ahead.wordThat, Ahead.symbolIn, Ahead.lexeme, hc] at hm
      obtain ⟨t', vs, ⟨rfl, -⟩, -, rfl⟩ := laid_cons.1 hus
      cases hl' : t'.lexeme with
      | word v =>
        rw [hl'] at hi hus
        refine not_named_of_word ?_ hus hr rest
        rintro s ls' rfl
        simpa [opensType, leavesType] using hi
      | symbol s =>
        rw [hl'] at hp hus
        have hs : s ∈ ["[", "\x7b"] := by
          simpa [Ahead.or, Ahead.anyWord, Ahead.wordThat, Ahead.symbolIn, Ahead.lexeme, hl']
            using hm.2
        exact not_named_of_group hg (hp.second w s ls rfl hs) hs hus hr rest
      | _ => simp [Ahead.or, Ahead.anyWord, Ahead.wordThat, Ahead.symbolIn, Ahead.lexeme, hl'] at hm
    · refine hplain (by simpa using hm) (not_named_of_word ?_ hts hr) rest
      rintro s ls' rfl
      simpa [opensType, leavesType] using hi
  | symbol s =>
    rw [hl] at hi hp hts
    have hm : modifiesParameter (t :: (us ++ rest')) = false := by
      simp [modifiesParameter, Ahead.before, Ahead.wordIn, Ahead.wordThat, Ahead.lexeme, hl]
    have hopens : s = "(" ∨ s = "[" ∨ s = "\x7b" ∨ s = "-" := by simpa [opensType] using hi
    refine ⟨?_, hplain hm ?_⟩
    · rcases hopens with rfl | rfl | rfl | rfl <;> simp [Ahead.symbolIn, Ahead.lexeme, hl]
    by_cases hs : s ∈ ["[", "\x7b"]
    · exact not_named_of_group hg (hp.first s ls rfl hs) hs hts hr
    · refine fun rest => not_named_of_symbol (by simp [hl]) ?_
      simpa [Ahead.symbolIn, Ahead.lexeme, hl] using hs
  | _ =>
    have hm : modifiesParameter (t :: (us ++ rest')) = false := by
      simp [modifiesParameter, Ahead.before, Ahead.wordIn, Ahead.wordThat, Ahead.lexeme, hl]
    refine ⟨by simp [Ahead.symbolIn, Ahead.lexeme, hl], hplain hm fun rest => ?_⟩
    exact not_named_of_symbol (by simp [hl]) (by simp [Ahead.symbolIn, Ahead.lexeme, hl])

/-- Where an operand of a union stands, no parameters of a function do. -/
theorem not_opensFunction (hg : g.BindsGroups) (h : OpensOperand ls) :
    Shows ls (fun ts => Ahead.symbol "=>" ts = false)
      fun ts => ∀ rest, g.opensFunction ts ≠ some (true, rest) := by
  rintro ts rest' hts hr rest hf
  obtain ⟨l, ls, rfl⟩ := exists_cons_of_opensType h.opens
  obtain ⟨t, us, ⟨rfl, -⟩, hus, rfl⟩ := laid_cons.1 hts
  rw [List.cons_append] at hf
  rcases sees_ite_eq_some.1 hf with ⟨hs, -⟩ | ⟨-, hf⟩
  · obtain ⟨_, _, e, ht⟩ := Ahead.symbol_iff.1 hs
    cases e
    have := h.opens
    simp [ht, opensType] at this
  obtain ⟨_, _, e, ht, hf⟩ := symbol_bind_eq_some.1 hf
  cases e
  obtain ⟨inner, outer, rfl, hi, hp, ho⟩ := h.brackets ls (by rw [ht])
  obtain ⟨ti, vs, hti, hvs, rfl⟩ := laid_append.1 hus
  obtain ⟨c, ws, ⟨hc, -⟩, hws, rfl⟩ := laid_cons.1 hvs
  have harrow : Ahead.symbol "=>" (ws ++ rest') = false := by
    cases outer with
    | nil =>
      obtain rfl := laid_nil.1 hws
      exact hr
    | cons l outer =>
      obtain ⟨t', ws, ⟨rfl, -⟩, -, rfl⟩ := laid_cons.1 hws
      by_contra hne
      obtain ⟨_, _, e, ht'⟩ := Ahead.symbol_iff.1 (by simpa using hne)
      cases e
      exact ho outer (by rw [ht'])
  obtain ⟨hsees, hno⟩ := @not_named_of_opensType g hg _ hi hp ti (c :: (ws ++ rest')) hti
    ⟨Ahead.symbol_iff.2 ⟨c, _, rfl, hc⟩, harrow⟩
  rw [List.append_assoc, List.cons_append] at hf
  rcases sees_ite_eq_some.1 hf with ⟨hs, -⟩ | ⟨-, hf⟩
  · rw [hsees] at hs
    cases hs
  · exact hno rest hf

theorem unconditional_of_union (hg : g.BindsGroups) (h : Reads (g.union c) ls k S)
    (ho : OpensOperand ls)
    (hk : ∀ ts, k ts → Ahead.symbol "=>" ts = false ∧ Ahead.word "new" ts = false) :
    Reads (g.unconditional c) ls k S := by
  rintro ts rest hts hr
  obtain ⟨t, ht, e⟩ := h hts hr
  refine ⟨t, ht, ?_⟩
  have hnot := not_opensFunction hg ho hts (hk rest hr).1
  have hforesees : foresees g.opensFunction (ts ++ rest) = some (false, ts ++ rest) := by
    unfold foresees
    split
    · next b r hb =>
      cases b with
      | true => exact absurd hb (hnot r)
      | false => rfl
    · rfl
  refine bind_eq_some.2 ⟨false, _, hforesees, ?_⟩
  rw [if_neg (by simp), sees_bind, if_neg ?_, e]
  obtain ⟨l, ls, rfl⟩ := exists_cons_of_opensType ho.opens
  obtain ⟨u, us, ⟨rfl, -⟩, hus, rfl⟩ := laid_cons.1 hts
  simp only [Ahead.word, Ahead.lexeme, List.cons_append, List.tail_cons, Bool.or_eq_true,
    beq_iff_eq, Bool.and_eq_true, not_or, not_and]
  refine ⟨fun hnew => ho.not_new ls (by rw [hnew]), fun habstract hn => ?_⟩
  cases ls with
  | nil =>
    obtain rfl := laid_nil.1 hus
    have := (hk rest hr).2
    rw [List.nil_append] at hn
    rw [Ahead.word, Ahead.lexeme.eq_def] at this
    simp [hn] at this
  | cons l ls =>
    obtain ⟨v, vs, ⟨rfl, -⟩, -, rfl⟩ := laid_cons.1 hus
    have hnew : v.lexeme = .word "new" := by simpa using hn
    exact ho.not_abstract ls (by rw [habstract, hnew])

theorem typeRule_of_unconditional (h : Reads (g.unconditional c) ls k S)
    (hk : ∀ ts, k ts → (c && (Ahead.word "extends").and Ahead.sameLine ts) = false) :
    Reads (g.typeRule c) ls k S :=
  h.bind_nil fun _ ht => .sees false (.nil hk) (.pure ht)

end Grammar
end ApiSurface.Source
