import ApiSurface.Proofs.BalancedPieces
import ApiSurface.Proofs.FittingPieces
import ApiSurface.Proofs.LaidOut

/-! The tokens of a text that pieces spell. Where the pieces fit and no string has to be escaped,
the scanner reads the lexemes of the pieces, all of them in one line. -/
namespace ApiSurface.Source
open Piece

/-- Text between quotes stands there as it is. -/
def Piece.isClean : Piece → Bool
  | token (.string v) => isPlainText '"' v.toList
  | quoted v => isPlainText '\'' v.toList
  | _ => true

/-- A lexeme is read behind another, at the front of a text or behind blanks there. -/
structure Lexed (previous : Lexeme) (s : List Bracket) (cs : List Char) (l : Lexeme)
    (rest : List Char) : Prop where
  found : ∃ front, Gap.skip .space false cs = some (false, front) ∧ front ≠ [] ∧
    Lexer.isMarkupComment false front = false ∧
    Lexer.lexemeBehind (some previous) (bracesOf s) front = some (l, rest)
  shorter : rest.length < cs.length

/-- The tokens of a text, the first of them behind another lexeme, are laid out in one line. -/
def Lays (previous : Lexeme) (s : List Bracket) (cs : List Char) (ls : List Lexeme) : Prop :=
  ∀ ⦃m n⦄, cs.length < n →
    ∃ ts, Lexer.tokensFrom m n (some previous) (bracesOf s) cs = some ts ∧ Laid ls ts

section

variable {previous l : Lexeme} {s s' : List Bracket} {c : Char} {cs rest : List Char}
  {ls : List Lexeme}

theorem Lays.newline : Lays previous s ['\n'] [] := by
  intro m n hn
  obtain ⟨n, rfl⟩ : ∃ m, n = m + 1 := ⟨n - 1, by omega⟩
  exact ⟨[], Lexer.tokensFrom_eq_some.2 ⟨true, [], rfl, rfl, .inl ⟨rfl, rfl⟩⟩, .nil⟩

theorem Lays.blank (h : Lays previous s cs ls) : Lays previous s (' ' :: cs) ls := by
  intro m n hn
  obtain ⟨n, rfl⟩ : ∃ m, n = m + 1 := ⟨n - 1, by omega⟩
  obtain ⟨ts, hts, hlaid⟩ := h (m := m) (n := n + 1) (by simp at hn; omega)
  obtain ⟨broken, rest, hskip, hcomment, hrest⟩ := Lexer.tokensFrom_eq_some.1 hts
  have hskip' : Gap.skip .space false (' ' :: cs) = some (broken, rest) := hskip
  obtain ⟨rfl, rfl⟩ | ⟨hne, l, rest', more, hl, hmore, rfl⟩ := hrest
  · exact ⟨[], Lexer.tokensFrom_eq_some.2 ⟨broken, [], hskip', hcomment, .inl ⟨rfl, rfl⟩⟩, hlaid⟩
  · refine ⟨_, Lexer.tokensFrom_eq_some.2 ⟨broken, rest, hskip', hcomment,
      .inr ⟨hne, l, rest', more, hl, hmore, rfl⟩⟩, ?_⟩
    cases hlaid with
    | cons h hmore => exact .cons h hmore

theorem Lexed.of_front (hgap : startsGap cs = false)
    (hcomment : Lexer.isMarkupComment false cs = false)
    (hread : Lexer.lexemeBehind (some previous) (bracesOf s) cs = some (l, rest))
    (hrest : rest.length < cs.length) : Lexed previous s cs l rest := by
  refine ⟨⟨cs, Gap.skip_of_not_startsGap hgap false, ?_, hcomment, hread⟩, hrest⟩
  rintro rfl
  cases hrest

theorem Lexed.blank (h : Lexed previous s cs l rest) : Lexed previous s (' ' :: cs) l rest :=
  ⟨h.found, Nat.lt_succ_of_lt h.shorter⟩

/-- The first token of a text is the lexeme that is read there. -/
theorem Lexed.tokens (h : Lexed previous s cs l rest) (hs : l.shift s = some s') (m n : Nat) :
    ∃ t : Token, t.lexeme = l ∧ t.startsLine = false ∧
      Lexer.tokensFrom m (n + 1) (some previous) (bracesOf s) cs =
        (Lexer.tokensFrom m n (some l) (bracesOf s') rest).map (t :: ·) := by
  obtain ⟨front, hskip, hne, hcomment, hread⟩ := h.found
  have hread' : Lexer.lexeme previous.awaitsOperand ((bracesOf s).head?.getD false) front =
      some (l, rest) := hread
  refine ⟨⟨l, m - front.length, false, front.length = cs.length⟩, rfl, rfl, ?_⟩
  simp only [Lexer.tokensFrom, Option.isNone_some, Option.bind_eq_bind, hskip, Option.bind_some,
    hcomment, List.isEmpty_eq_false_iff.2 hne, Option.map_some, Option.getD_some, hread',
    nest_bracesOf hs, Option.isSome_some, Bool.true_and]
  cases Lexer.tokensFrom m n (some l) (bracesOf s') rest <;> rfl

theorem Lays.lexeme (hl : Lexed previous s cs l rest) (hs : l.shift s = some s')
    (h : Lays l s' rest ls) : Lays previous s cs (l :: ls) := by
  intro m n hn
  obtain ⟨n, rfl⟩ : ∃ m, n = m + 1 := ⟨n - 1, by omega⟩
  have hshorter := hl.shorter
  obtain ⟨ts, hts, hlaid⟩ := h (m := m) (n := n) (by omega)
  obtain ⟨t, ht, hline, htokens⟩ := hl.tokens hs m n
  exact ⟨t :: ts, by rw [htokens, hts]; rfl, .cons ⟨ht, hline⟩ hlaid⟩

theorem startsGap_of_head {d : Char} (hd : isGapHead d = false) (ds : List Char) :
    startsGap (d :: ds) = false := by
  simp only [isGapHead, Bool.or_eq_false_iff, decide_eq_false_iff_not] at hd
  rw [startsGap_cons]
  simp [hd]

/-- A piece that fits is read back. -/
theorem Piece.lexed {p : Piece} (hl : p.lexeme? = some l) (hf : p.Fits c) (hp : p.isClean)
    (hs : l.shift s = some s') : Lexed previous s (p.chars ++ c :: cs) l (c :: cs) := by
  cases p with
  | blank => cases hl
  | quoted v =>
    cases hl
    rw [chars_quoted, List.append_assoc, List.cons_append]
    exact .of_front rfl rfl (Lexer.lexeme_string (.inr rfl) hp) (by simp; omega)
  | token l' =>
    cases hl
    obtain ⟨htype, hends⟩ := hf
    obtain ⟨d, ds, hd, hgap, -, hless⟩ := Lexer.spelling_head htype
    have hread := Lexer.lexeme_spelling cs htype hends (by rintro v rfl; exact hp) hs
      (some previous)
    refine .of_front ?_ ?_ hread ?_
    · rw [chars_token, hd]
      exact startsGap_of_head hgap _
    · rw [chars_token, Lexer.isMarkupComment, Bool.false_and, Bool.or_false]
      by_contra hcomment
      obtain ⟨more, hmore⟩ := List.isPrefixOf_iff_prefix.1 (Bool.of_not_eq_false hcomment)
      rw [hd] at hmore
      obtain rfl := hless (List.cons.inj hmore).1.symm
      obtain rfl : ds = [] := (List.cons.inj hd).2.symm
      have hmark : '!' = c := (List.cons.inj (List.cons.inj hmore).2).1
      exact endsSymbol_iff.1 hends (by simp [← hmark])
    · rw [chars_token, hd]
      simp

end

theorem spelled_leading (ps : List Piece) (c : Char) (cs : List Char) :
    ∃ more, spelled ps ++ c :: cs = leading ps c :: more := by
  cases h : spelled ps with
  | nil => exact ⟨cs, by simp [leading, h]⟩
  | cons d ds => exact ⟨ds ++ c :: cs, by simp [leading, h]⟩

/-- The tokens of pieces that fit, in front of others. -/
theorem lays_pieces {ps : List Piece} {c : Char} {cs : List Char} {s s' : List Bracket}
    {ls : List Lexeme} (hf : Fits ps c) (hp : ∀ p ∈ ps, p.isClean)
    (hs : nests s (lexemes ps) = some s') (h : ∀ previous, Lays previous s' (c :: cs) ls)
    (previous : Lexeme) : Lays previous s (spelled ps ++ c :: cs) (lexemes ps ++ ls) := by
  induction ps generalizing s previous with
  | nil =>
    cases hs
    exact h previous
  | cons p ps ih =>
    obtain ⟨hfit, hf⟩ := hf
    obtain ⟨hclean, hps⟩ := List.forall_mem_cons.1 hp
    rw [spelled_cons, List.append_assoc]
    cases hl : p.lexeme? with
    | none =>
      obtain rfl : p = .blank := by cases p <;> first | rfl | cases hl
      exact (ih hf hps hs previous).blank
    | some l =>
      have hlexemes : lexemes (p :: ps) = l :: lexemes ps := List.filterMap_cons_some hl
      rw [hlexemes] at hs ⊢
      obtain ⟨s₁, hshift, hs⟩ := Option.bind_eq_some_iff.1 hs
      have hrest := ih hf hps hs l
      obtain ⟨more, hmore⟩ := spelled_leading ps c cs
      rw [hmore] at hrest ⊢
      exact .lexeme (Piece.lexed hl hfit hclean hshift) hshift hrest

end ApiSurface.Source
