import ApiSurface.Proofs.OperandTypes

/-! Unions, functions and conditional types are read back, and with them all types: whatever the
grammar reads from anywhere, it reads again from the lexemes of its text, up to what is erased. -/
namespace ApiSurface.Source
open Parse Piece

namespace Grammar

variable {g : Grammar} {ts rest : List Token} {n : Nat} {t : TypeTerm} {c : Bool}

/-! Joined types. -/

/-- What stands between the elements of a list ends in the last one. -/
theorem intercalate_eq_append_getLast {α β : Type} (sep : List β) {f : α → List β} {as : List α}
    {a : α} (h : as.getLast? = some a) : ∃ front, sep.intercalate (as.map f) = front ++ f a := by
  induction as with
  | nil => cases h
  | cons b as ih =>
    cases as with
    | nil =>
      obtain rfl : b = a := by simpa using h
      exact ⟨[], by simp⟩
    | cons b' as =>
      obtain ⟨front, e⟩ := ih (by simpa [List.getLast?_cons_cons] using h)
      refine ⟨f b ++ sep ++ front, ?_⟩
      rw [List.map_cons, List.map_cons, List.intercalate_cons_cons, ← List.map_cons, e]
      simp

/-- A way to join types: how the whole is spelled, and what is kept of it. -/
structure Joins (join : String) (whole : List TypeTerm → TypeTerm) : Prop where
  pieces : ∀ ts,
    (whole ts).pieces = [.blank, Piece.symbol join, .blank].intercalate (typesPieces ts)
  legible : ∀ ts, (whole ts).legible = typesLegible ts
  erased : ∀ ts, (whole ts).erased = whole (erasedTypes ts)
  untested : ∀ ts, (whole ts).tests = false
  mem : join ∈ ["|", "&"]

theorem joins_union : Joins "|" .union :=
  ⟨fun _ => by rw [TypeTerm.pieces], fun _ => by rw [TypeTerm.legible],
    fun _ => by rw [TypeTerm.erased], fun _ => rfl, by simp⟩

theorem joins_intersection : Joins "&" .intersection :=
  ⟨fun _ => by rw [TypeTerm.pieces], fun _ => by rw [TypeTerm.legible],
    fun _ => by rw [TypeTerm.erased], fun _ => rfl, by simp⟩

theorem Joins.lexemes {join : String} {whole : List TypeTerm → TypeTerm} (h : Joins join whole)
    (ts : List TypeTerm) : lexemes (whole ts).pieces =
      [.symbol join].intercalate (ts.map fun t => lexemes t.pieces) := by
  rw [h.pieces, lexemes_intercalate, typesPieces_eq_map, List.map_map]
  rfl

theorem Joins.eq_or {join : String} {whole : List TypeTerm → TypeTerm} (h : Joins join whole) :
    join = "|" ∨ join = "&" := by
  simpa using h.mem

theorem Joins.eq_false {join : String} {whole : List TypeTerm → TypeTerm} (h : Joins join whole)
    {m : Nat} {ls : List Lexeme} {us : List Token} (hf : MayFollow c m ls rest us)
    (hr : Ahead.symbol join rest = false) : Ahead.symbol join us = false := by
  by_contra hs
  rw [Bool.not_eq_false] at hs
  obtain rfl | rfl := h.eq_or
  · rw [hf.bar hs] at hr
    cases hr
  · rw [hf.amp hs] at hr
    cases hr

/-- The types that were joined are each read again: the last one before what follows the whole,
the others before the sign that joins them. -/
theorem joined_readsEach {join : String} {whole : List TypeTerm → TypeTerm}
    {part : Parse TypeTerm} {rule : Nat → Parse TypeTerm} {as : List TypeTerm} {m : Nat}
    (hj : Joins join whole)
    (hpart : ∀ ⦃ts t rest⦄, part ts = some (t, rest) → t.legible → RecalledPart c rule t rest)
    (h : Parted part (Ahead.symbol join) as rest) (hl : ∀ a ∈ as, a.legible)
    (hn : (lexemes (whole as).pieces).length + m ≤ n) :
    ReadsEach (rule n) (fun t : TypeTerm => lexemes t.pieces)
      (MayFollow c m (lexemes (whole as).pieces) rest) (fun ts => Ahead.symbol join ts)
      (fun t t' => t'.erased = t.erased) as := by
  have hitem : ∀ a ∈ as, (lexemes a.pieces).length + m ≤ n := by
    intro a ha
    have hlen := length_le_intercalate [.symbol join]
      (List.mem_map_of_mem (f := fun t : TypeTerm => lexemes t.pieces) ha)
    rw [← hj.lexemes] at hlen
    omega
  refine h.readsEach (fun us a mid ha hread hmid => ?_) fun us a ha hread => ?_
  · refine ((hpart hread (hl a ha)).back (hitem a ha)).mono (fun vs hvs => ?_) fun _ h => h
    obtain ⟨v, vs, rfl, hv⟩ := Ahead.symbol_iff.1 hvs
    refine follows_of_symbol hv ?_ hmid
    obtain rfl | rfl := hj.eq_or <;> simp
  · have hmem := List.mem_of_getLast? ha
    refine ((hpart hread (hl a hmem)).back (hitem a hmem)).mono (fun vs hvs => ?_) fun _ h => h
    obtain ⟨front, hfront⟩ := intercalate_eq_append_getLast [.symbol join]
      (f := fun t : TypeTerm => lexemes t.pieces) ha
    rw [hj.lexemes, hfront] at hvs
    exact hvs.tail _

theorem joined_back {join : String} {whole : List TypeTerm → TypeTerm} {part : Parse TypeTerm}
    {rule : Nat → Parse TypeTerm} (hj : Joins join whole)
    (hpart : ∀ ⦃ts t rest⦄, part ts = some (t, rest) → t.legible → RecalledPart c rule t rest)
    (h : joined join whole part ts = some (t, rest)) (hl : t.legible) :
    RecalledPart c (fun n => joined join whole (rule n)) t rest := by
  obtain ⟨_, mid, -, h⟩ := bind_eq_some.1 h
  obtain ⟨as, mid', has, h⟩ := bind_eq_some.1 h
  obtain ⟨hparted, hend⟩ := separated_parted has
  have hbracket : join ∉ ["(", "[", "\x7b", "-"] := by
    obtain rfl | rfl := hj.eq_or <;> simp
  split at h
  · cases h
    obtain ⟨us, _, hread⟩ := hparted.forall t (by simp)
    have hr : RecalledPart c rule t rest := by
      cases hparted with
      | last hread => exact hpart hread hl
      | more _ _ hrest => exact absurd rfl hrest.ne_nil
    exact ⟨fun m n hn => joined_of_part (hr.back hn)
      (ne_symbol_of_opensType hr.operand.opens hbracket) fun us hus => hj.eq_false hus hend,
      hr.operand, hr.untested⟩
  · next hone =>
    cases h
    rw [hj.legible] at hl
    have hlegible := typesLegible_iff.1 hl
    obtain ⟨a, a', as, rfl⟩ : ∃ a a' as', as = a :: a' :: as' := by
      obtain _ | ⟨a, _ | ⟨a', as⟩⟩ := as
      · exact absurd rfl hparted.ne_nil
      · exact absurd rfl (hone a)
      · exact ⟨a, a', as, rfl⟩
    have hls : lexemes (whole (a :: a' :: as)).pieces = lexemes a.pieces ++ .symbol join ::
        [.symbol join].intercalate ((a' :: as).map fun t => lexemes t.pieces) := by
      rw [hj.lexemes, List.map_cons, List.map_cons, List.intercalate_cons_cons]
      simp
    obtain ⟨us, mid'', hread⟩ := hparted.forall a (by simp)
    have hfirst := (hpart hread (hlegible a (by simp))).operand
    refine ⟨fun m n hn => ?_, ?_, hj.untested _⟩
    · have hsep := (joined_readsEach hj hpart hparted hlegible hn).separated (by simp)
        fun us hus => hj.eq_false hus hend
      rw [← hj.lexemes] at hsep
      obtain ⟨l, ls, hcons, hne⟩ := ne_symbol_of_opensType hfirst.opens hbracket
      refine .takes_not ?_ (hsep.bind_nil fun bs hbs => ?_)
      · rw [hls, hcons]
        exact .head fun t ts ht _ => by simp [Ahead.symbol, Ahead.lexeme, ht, hne]
      · have herased : erasedTypes bs = erasedTypes (a :: a' :: as) := by
          rw [erasedTypes_eq_map, erasedTypes_eq_map, map_eq_of_forall₂ hbs]
        obtain _ | ⟨_, _ | ⟨_, _⟩⟩ := hbs
        exact .pure (by rw [hj.erased, hj.erased, herased])
    · rw [hls]
      refine hfirst.append_symbol ?_ fun h => ?_
      · obtain rfl | rfl := hj.eq_or <;> simp [afterName]
      · obtain rfl | rfl := hj.eq_or <;> simp at h

theorem union_back (hg : g.Recalls) (h : g.union c ts = some (t, rest)) (hl : t.legible) :
    RecalledPart c (fun n => (grammar n).union c) t rest :=
  joined_back joins_union (fun _ _ _ h hl => joined_back joins_intersection
    (fun _ _ _ h hl => typeOperandRule_back hg h hl) h hl) h hl

/-! Functions and constructors. -/

/-- Parameters in front of an arrow and a result. -/
def arrowLexemes (ps : List Parameter) (r : TypeTerm) : List Lexeme :=
  .symbol "(" :: (lexemes (commaPieces (parametersPieces ps)) ++ [.symbol ")"]) ++
    .symbol "=>" :: lexemes r.pieces

/-- What stands behind the opening bracket of parameters tells them from a type. -/
theorem shows_opensFunction {ps : List Parameter} {ls : List Lexeme} {k : List Token → Prop}
    (hl : parametersLegible ps) :
    Shows (.symbol "(" :: (lexemes (commaPieces (parametersPieces ps)) ++
      .symbol ")" :: ls)) k fun ts => ∃ rest, g.opensFunction ts = some (true, rest) := by
  have hopens : ∀ {t : Token} {us : List Token} (rest : List Token), t.lexeme = .symbol "(" →
      Ahead.symbolIn [")", "..."] us = true ∨ Ahead.symbolIn [")", "..."] us = false ∧
        (takes modifiesParameter >>= fun _ => g.behindModifier) us = some (true, rest) →
      ∃ rest, g.opensFunction (t :: us) = some (true, rest) := by
    intro t us rest ht hus
    have hless : Ahead.symbol "<" (t :: us) = false := by simp [Ahead.symbol, Ahead.lexeme, ht]
    obtain hs | ⟨hs, hb⟩ := hus
    · exact ⟨us, sees_ite_eq_some.2 (.inr ⟨hless, symbol_bind_eq_some.2
        ⟨t, us, rfl, ht, sees_ite_eq_some.2 (.inl ⟨hs, rfl⟩)⟩⟩)⟩
    · exact ⟨rest, sees_ite_eq_some.2 (.inr ⟨hless, symbol_bind_eq_some.2
        ⟨t, us, rfl, ht, sees_ite_eq_some.2 (.inr ⟨hs, hb⟩)⟩⟩)⟩
  rintro ts rest hts hr
  obtain ⟨t, us, ⟨ht, -⟩, hus, rfl⟩ := laid_cons.1 hts
  have hdots : ∀ {s : String} {ls : List Lexeme}, Laid (.symbol s :: ls) us → s ∈ [")", "..."] →
      Ahead.symbolIn [")", "..."] (us ++ rest) := by
    intro s ls hus hs
    obtain ⟨u, us, ⟨hu, -⟩, -, rfl⟩ := laid_cons.1 hus
    simpa [Ahead.symbolIn, Ahead.lexeme, hu] using hs
  cases ps with
  | nil => exact hopens [] ht (.inl (hdots hus (by simp)))
  | cons p ps =>
    rw [parametersPieces_eq_map, lexemes_commaPieces_map, intercalate_cons_eq_flatMap] at hus
    have hp := parametersLegible_iff.1 hl p (by simp)
    cases p with
    | named name isOptional t? =>
      rw [lexemes_named] at hus
      obtain ⟨u, vs, ⟨hu, -⟩, hvs, rfl⟩ := laid_cons.1 hus
      obtain ⟨v, us, ⟨hv, -⟩, -, rfl⟩ := laid_cons.1 hvs
      refine hopens (v :: (us ++ rest)) ht (.inr ⟨?_, ?_⟩)
      · simp [Ahead.symbolIn, Ahead.lexeme, hu]
      · have hmodifies : modifiesParameter (u :: v :: (us ++ rest)) = false := by
          simp [modifiesParameter, Ahead.before, Ahead.or, Ahead.anyWord, Ahead.wordThat,
            Ahead.symbolIn, Ahead.lexeme, hv]
        have hname : anyWord (u :: v :: (us ++ rest)) = some (name, v :: (us ++ rest)) :=
          wordThat_eq_some.2 ⟨u, rfl, hu, rfl⟩
        change (takes modifiesParameter >>= fun _ => g.behindModifier) (u :: v :: (us ++ rest)) = _
        rw [takes_bind, hmodifies, if_neg (by simp)]
        refine sees_ite_eq_some.2 (.inr ⟨?_, bind_eq_some.2 ⟨name, _, hname, ?_⟩⟩)
        · simp [Ahead.symbolIn, Ahead.lexeme, hu]
        · refine takes_ite_eq_some.2 (.inr ⟨?_, ?_⟩)
          · simp [Ahead.symbol, Ahead.lexeme, hv]
          · simp [Ahead.symbolIn, Ahead.lexeme, hv]
    | rest name t? =>
      rw [lexemes_rest] at hus
      exact hopens [] ht (.inl (hdots hus (by simp)))
    | restPattern o => cases hp
    | arrayPattern o => cases hp
    | objectPattern o => cases hp

/-- Parameters, an arrow and a result, behind what stands in front of a function. -/
theorem arrow_back (whole : List TypeParameter → List Parameter → TypeTerm → TypeTerm)
    (hg : g.Recalls) {ps : List Parameter} {r : TypeTerm} {mid us : List Token} {m : Nat}
    (hps : g.parameters c ts = some (ps, mid)) (hr : g.result c us = some (r, rest))
    (hl : parametersLegible ps ∧ r.legible ∧ r.clear)
    (hn : (arrowLexemes ps r).length + m ≤ n) :
    Reads ((grammar n).typeParameters ["const"] >>= fun gs => (grammar n).parameters c >>=
      fun ps => Parse.symbol "=>" >>= fun _ => (grammar n).result c >>= fun r =>
        Pure.pure (whole gs ps r)) (arrowLexemes ps r) (MayFollow c m (arrowLexemes ps r) rest)
      fun t => ∃ ps' r', t = whole [] ps' r' ∧ erasedParameters ps' = erasedParameters ps ∧
        r'.erased = r.erased := by
  have hn' := hn
  simp only [arrowLexemes, List.length_append, List.length_cons] at hn'
  refine (typeParameters_none fun _ h => h).bind_of_nil (.symbol_ne (by simp)) fun gs hgs => ?_
  subst hgs
  refine (parameters_back (k := fun _ => True) hg hps hl.1 (n := n) (by omega)).bind
    (fun _ _ _ _ => trivial) fun ps' hps' => .symbol ?_
  refine ((result_back hg hr hl.2.1 hl.2.2 (m := m) (n := n) (by omega)).mono
    (fun ts hts => ?_) fun _ h => h).bind_pure fun r' hr' => ⟨ps', r', rfl, hps', hr'⟩
  rw [arrowLexemes, List.append_cons] at hts
  exact hts.tail _

theorem function_back (hg : g.Recalls) (h : g.function c ts = some (t, rest)) (hl : t.legible) :
    Recalled c (fun n => (grammar n).unconditional c) t rest := by
  obtain ⟨gs, mid, -, h⟩ := bind_eq_some.1 h
  obtain ⟨ps, mid', hps, h⟩ := bind_eq_some.1 h
  obtain ⟨_, _, -, -, h⟩ := symbol_bind_eq_some.1 h
  obtain ⟨r, mid'', hr, h⟩ := bind_eq_some.1 h
  cases h
  have hls : lexemes (TypeTerm.function gs ps r).pieces = arrowLexemes ps r := by
    simp [TypeTerm.pieces, arrowLexemes]
  simp only [TypeTerm.legible, Bool.and_eq_true, and_assoc] at hl
  refine ⟨fun m n hn us vs hus hvs => ?_, ?_, ?_, rfl⟩
  · rw [hls] at hn hus hvs
    obtain ⟨_, ⟨ps', r', rfl, hps', hr'⟩, e⟩ := arrow_back .function hg hps hr hl hn hus hvs
    refine ⟨.function [] ps' r', by simp [TypeTerm.erased, hps', hr'], ?_⟩
    have hopens : ∃ rest, (grammar n).opensFunction (us ++ vs) = some (true, rest) := by
      rw [arrowLexemes, List.cons_append, List.append_assoc] at hus
      exact shows_opensFunction (k := fun _ => True) hl.1 hus trivial
    obtain ⟨rest', hopens⟩ := hopens
    refine bind_eq_some.2 ⟨true, us ++ vs, by rw [foresees, hopens], e⟩
  · rw [hls]
    rfl
  · rw [hls]
    exact .of_head (by simp) (by simp)

theorem constructor_back (hg : g.Recalls) (h : g.constructor c ts = some (t, rest))
    (hl : t.legible) : Recalled c (fun n => (grammar n).unconditional c) t rest := by
  obtain ⟨isAbstract, _, -, h⟩ := bind_eq_some.1 h
  obtain ⟨_, _, -, -, h⟩ := word_bind_eq_some.1 h
  obtain ⟨gs, mid, -, h⟩ := bind_eq_some.1 h
  obtain ⟨ps, mid', hps, h⟩ := bind_eq_some.1 h
  obtain ⟨_, _, -, -, h⟩ := symbol_bind_eq_some.1 h
  obtain ⟨r, mid'', hr, h⟩ := bind_eq_some.1 h
  cases h
  have hls : lexemes (TypeTerm.constructor isAbstract gs ps r).pieces =
      (if isAbstract then [.word "abstract"] else []) ++ .word "new" :: arrowLexemes ps r := by
    cases isAbstract <;> simp [TypeTerm.pieces, arrowLexemes]
  simp only [TypeTerm.legible, Bool.and_eq_true, and_assoc] at hl
  have hforesees : ∀ {w : String} {ls : List Lexeme} {k : List Token → Prop} {S : TypeTerm → Prop}
      {n : Nat}, Reads (sees (fun ts => Ahead.word "new" ts ||
          Ahead.word "abstract" ts && Ahead.word "new" ts.tail) >>= fun b =>
        if b then (grammar n).constructor c else (grammar n).union c) (.word w :: ls) k S →
      Reads ((grammar n).unconditional c) (.word w :: ls) k S := by
    intro w ls k S n h us vs hus hvs
    obtain ⟨t, ht, e⟩ := h hus hvs
    obtain ⟨u, us, ⟨hu, -⟩, -, rfl⟩ := laid_cons.1 hus
    refine ⟨t, ht, bind_eq_some.2 ⟨false, u :: (us ++ vs), ?_, e⟩⟩
    have hnone : (grammar n).opensFunction (u :: (us ++ vs)) = none := by
      simp [opensFunction, Ahead.symbol, Ahead.lexeme, hu, Parse.symbol, bind, StateT.bind]
    change foresees (grammar n).opensFunction (u :: (us ++ vs)) = _
    rw [foresees, hnone]
  refine ⟨fun m n hn => ?_, ?_, ?_, rfl⟩
  · rw [hls] at hn ⊢
    simp only [List.length_append, List.length_cons] at hn
    have hread := (arrow_back (n := n) (m := m) (.constructor isAbstract) hg hps hr hl
      (by omega)).mono (S := (·.erased = (TypeTerm.constructor isAbstract gs ps r).erased))
      (j := MayFollow c m ((if isAbstract then [.word "abstract"] else []) ++ .word "new" ::
        arrowLexemes ps r) rest)
      (fun ts hts => by rw [List.append_cons] at hts; exact hts.tail) (by
        rintro _ ⟨ps', r', rfl, hps', hr'⟩
        simp [TypeTerm.erased, hps', hr'])
    cases isAbstract with
    | false =>
      refine hforesees (.sees true (.head fun t ts ht _ => ?_) <|
        .takes_not (.word_ne (by simp)) <| .word hread)
      simp [Ahead.word, Ahead.lexeme, ht]
    | true =>
      refine hforesees (.sees true (.cons (B := fun ts => Ahead.word "new" ts) .word
        fun t ts ht _ hts => ?_) <| .takes .word <| .word hread)
      simp [Ahead.word, Ahead.lexeme, ht] at hts ⊢
      exact hts
  · rw [hls]
    cases isAbstract <;> rfl
  · rw [hls]
    cases isAbstract with
    | false =>
      refine .of_word fun s ls' e hs => ?_
      cases e
      simp at hs
    | true => exact .of_word (by simp)

theorem unconditional_back (hg : g.Recalls) (h : g.unconditional c ts = some (t, rest))
    (hl : t.legible) : Recalled c (fun n => (grammar n).unconditional c) t rest := by
  obtain ⟨_, mid, -, h⟩ := bind_eq_some.1 h
  split at h
  · exact function_back hg h hl
  rcases sees_ite_eq_some.1 h with ⟨-, h⟩ | ⟨-, h⟩
  · exact constructor_back hg h hl
  · have hr := union_back hg h hl
    refine ⟨fun m n hn => unconditional_of_union (grammar_bindsGroups n) (hr.back hn) hr.operand
      fun us hus => ?_, hr.operand.opens, hr.operand.grouped, hr.untested⟩
    exact ⟨hus.symbol_eq_false (by simp), hus.word_eq_false (by simp)⟩

/-! Conditional types. -/

theorem conditional_back (hg : g.Recalls) {checked bound yes no : TypeTerm}
    {us₁ us₂ us₃ us₄ us₅ : List Token}
    (hchecked : Recalled true (fun n => (grammar n).unconditional true) checked us₁)
    (hextends : (Ahead.word "extends").and Ahead.sameLine us₁)
    (hbound : g.type false us₂ = some (bound, us₃)) (hquestion : Ahead.symbol "?" us₃)
    (hyes : g.type true us₄ = some (yes, us₅)) (hno : g.type true ts = some (no, rest))
    (hl : (TypeTerm.conditional checked bound yes no).legible) :
    Recalled true (fun n => (grammar n).typeRule true) (.conditional checked bound yes no)
      rest := by
  simp only [TypeTerm.legible, Bool.and_eq_true, and_assoc] at hl
  obtain ⟨-, hlbound, hlyes, hlno⟩ := hl
  have hb := hg.type false hbound hlbound
  have hy := hg.type true hyes hlyes
  have hn' := hg.type true hno hlno
  have hls : lexemes (TypeTerm.conditional checked bound yes no).pieces =
      lexemes checked.pieces ++ .word "extends" :: (lexemes bound.pieces ++ .symbol "?" ::
        (lexemes yes.pieces ++ .symbol ":" :: lexemes no.pieces)) := by
    simp [TypeTerm.pieces]
  -- The bound in front of a question mark makes the whole a condition, to all rules that reach it.
  have hboundReads : ∀ n, (lexemes bound.pieces).length < n →
      Reads ((grammar n).type false) (lexemes bound.pieces) (fun ts => Ahead.symbol "?" ts)
        (·.erased = bound.erased) := by
    intro n hlen
    refine (hb.type (m := 0) hlen).mono (fun vs hvs => ?_) fun _ h => h
    obtain ⟨v, vs, rfl, hv⟩ := Ahead.symbol_iff.1 hvs
    exact follows_of_symbol hv (by simp) hquestion
  refine ⟨fun m n hn => ?_, ?_, ?_, rfl⟩
  · rw [hls] at hn ⊢
    simp only [List.length_append, List.length_cons] at hn
    refine (hchecked.back (m := (lexemes bound.pieces).length + 1) (n := n) (by omega)).bind ?_
      fun checked' hchecked' => .sees true ?_ <| .word <|
      (hboundReads n (by omega)).bind .symbol fun bound' hbound' => .symbol <|
      (hy.type_closed (n := n) (by omega) (closes_symbol (s := ":") (by simp))).bind .symbol
        fun yes' hyes' => .symbol <|
      ((hn'.type (m := m) (n := n) (by omega)).mono (fun vs hvs => ?_)
        fun _ h => h).bind_pure fun no' hno' => ?_
    · rintro us vs hus hvs
      obtain ⟨t, ws, ⟨ht, -⟩, hws, rfl⟩ := laid_cons.1 hus
      refine follows_of_extends ht hextends (fun m hm => ?_) fun e => by cases e
      obtain ⟨ws₁, ws₂, h₁, h₂, rfl⟩ := laid_append.1 hws
      obtain ⟨u, ws₂, ⟨hu, -⟩, -, rfl⟩ := laid_cons.1 h₂
      have hq : Ahead.symbol "?" (u :: (ws₂ ++ vs)) := Ahead.symbol_iff.2 ⟨u, _, rfl, hu⟩
      obtain ⟨b, -, e⟩ := hboundReads m hm h₁ (r := u :: (ws₂ ++ vs)) hq
      by_contra hne
      obtain ⟨r, h⟩ := Option.ne_none_iff_exists'.1 hne
      obtain ⟨_, _, e', -, h⟩ := word_bind_eq_some.1 h
      cases e'
      change ((grammar m).type false >>= _) (ws₁ ++ u :: ws₂ ++ vs) = _ at h
      rw [List.append_assoc, List.cons_append] at h
      obtain ⟨b', mid, e', h⟩ := bind_eq_some.1 h
      cases e.symm.trans e'
      rw [sees_bind, require_bind, hq] at h
      cases h
    · exact .head fun t ts ht hs => by
        simp [Ahead.and, Ahead.word, Ahead.sameLine, Ahead.lexeme, ht, hs]
    · rw [show ∀ a b c d : List Lexeme, a ++ Lexeme.word "extends" :: (b ++ .symbol "?" ::
        (c ++ .symbol ":" :: d)) = (a ++ Lexeme.word "extends" :: (b ++ .symbol "?" ::
        (c ++ [.symbol ":"]))) ++ d by simp] at hvs
      exact hvs.tail _
    · simp [TypeTerm.erased, hchecked', hbound', hyes', hno']
  · rw [hls]
    exact opensType_append_word hchecked.opens (head_of_opensType hb.opens)
  · rw [hls]
    obtain ⟨l, ls, e⟩ := exists_cons_of_opensType hchecked.opens
    exact hchecked.grouped.append (by simp [e]) (by simp) (by simp)

theorem typeRule_back (hg : g.Recalls) (h : g.typeRule c ts = some (t, rest)) (hl : t.legible) :
    Recalled c (fun n => (grammar n).typeRule c) t rest := by
  obtain ⟨checked, mid, hchecked, hrule⟩ := bind_eq_some.1 h
  rcases sees_ite_eq_some.1 hrule with ⟨hc, hcond⟩ | ⟨hc, hplain⟩
  · obtain ⟨rfl, hextends⟩ := Bool.and_eq_true_iff.1 hc
    clear h hrule
    obtain ⟨_, us₂, -, -, h⟩ := word_bind_eq_some.1 hcond
    obtain ⟨bound, us₃, hbound, h⟩ := bind_eq_some.1 h
    obtain ⟨u, us₄, rfl, hu, h⟩ := symbol_bind_eq_some.1 h
    obtain ⟨yes, us₅, hyes, h⟩ := bind_eq_some.1 h
    obtain ⟨_, us₆, -, -, h⟩ := symbol_bind_eq_some.1 h
    obtain ⟨no, us₇, hno, h⟩ := bind_eq_some.1 h
    cases h
    have hlchecked : checked.legible := by
      simp only [TypeTerm.legible, Bool.and_eq_true, and_assoc] at hl
      exact hl.1
    exact conditional_back hg (unconditional_back hg hchecked hlchecked) hextends hbound
      (Ahead.symbol_iff.2 ⟨u, us₄, rfl, hu⟩) hyes hno hl
  · cases hplain
    have hr := unconditional_back hg hchecked hl
    refine ⟨fun m n hn => typeRule_of_unconditional (hr.back hn) fun us hus => ?_, hr.opens,
      hr.grouped, hr.untested⟩
    cases c with
    | false => rfl
    | true =>
      by_contra hs
      simp only [Bool.true_and, Bool.not_eq_false, Ahead.and, Bool.and_eq_true] at hs
      have := hus.condition hs.1
      simp only [Bool.true_and] at hc
      rw [this] at hc
      cases hc

/-! All types. -/

theorem binding_yields (d : Bool) :
    Yields (g.bindingRule d) fun b => ∀ name, b = .name name → isBindable name := by
  refine .bind fun _ => .bind fun _ => .ite (.bind fun _ => .pure nofun) <|
    .bind fun _ => .ite (.bind fun _ => .pure nofun) ?_
  rintro ts b rest h name rfl
  obtain ⟨w, mid, hw, e⟩ := bind_eq_some.1 h
  cases e
  obtain ⟨_, -, -, hbound⟩ := wordThat_eq_some.1 hw
  exact hbound

/-- Whatever the grammar reads, of types and what they are made of, it reads again. -/
theorem grammar_recalls (n : Nat) : (grammar n).Recalls := by
  induction n with
  | zero => exact ⟨fun _ => nofun, fun _ => nofun, fun _ => nofun, fun _ => nofun⟩
  | succ n ih =>
    refine ⟨fun c ts t rest h hl => ?_, fun c ts t rest h hl => ?_,
      fun d ts b rest h => binding_yields d h, fun i ts o rest h => assignmentRule_yields i h⟩
    · rw [type_grammar_succ] at h
      simp only [type_grammar_succ]
      exact typeRule_back ih h hl
    · rw [typeOperand_grammar_succ] at h
      simp only [typeOperand_grammar_succ]
      have hr := typeOperandRule_back ih h hl
      exact ⟨hr.back, hr.operand.opens, hr.operand.grouped, hr.untested⟩

end Grammar
end ApiSurface.Source
