import ApiSurface.Proofs.JoinedTokens

/-! Texts that are laid out anew. Where the gaps of a text are replaced by others that part its
tokens and end lines at the same places, the scanner reads the same tokens, apart from where they
start. -/
namespace ApiSurface.Source

/-- Two gaps that may replace each other. Behind a token both part it from the next one or neither
does, and both end a line or neither does; in front of the first token any gap is like another. -/
structure AlikeGaps (previous : Option Lexeme) (gap gap' : List Char) : Prop where
  old : IsGap false gap
  new : IsGap false gap'
  parts : previous.isSome → (gap = [] ↔ gap' = [])
  breaks : previous.isSome → gap.any isLineBreak = gap'.any isLineBreak

namespace AlikeGaps

variable {previous : Option Lexeme} {gap gap' : List Char} (h : AlikeGaps previous gap gap')
include h

/-- Seen from the scanner both gaps end a line, or neither does. -/
theorem broken_eq : (previous.isNone || gap.any isLineBreak) =
    (previous.isNone || gap'.any isLineBreak) := by
  cases previous with
  | none => rfl
  | some l => exact h.breaks rfl

/-- The scanner comes to the same texts behind both gaps. -/
theorem skip_eq (text : List Char) : Gap.skip .space previous.isNone (gap ++ text) =
    Gap.skip .space previous.isNone (gap' ++ text) := by
  rw [h.old.skip_inner, h.new.skip_inner, h.broken_eq]

/-- What comes behind such a gap touches the token before it, or it does not. -/
theorem length_eq_iff (hprevious : previous.isSome) {text text' rest rest' : List Char}
    (hrest : rest <:+ text) (hrest' : rest' <:+ text')
    (hlength : rest.length = text.length ↔ rest'.length = text'.length) :
    rest.length = (gap ++ text).length ↔ rest'.length = (gap' ++ text').length := by
  have hparts := h.parts hprevious
  have hle := hrest.length_le
  have hle' := hrest'.length_le
  rw [← List.length_eq_zero_iff, ← List.length_eq_zero_iff] at hparts
  rw [List.length_append, List.length_append]
  omega

end AlikeGaps

namespace Lexer

/-- The second text has the tokens of the first, with other gaps around them, in the state of a
scanner. What stands in a gap has to be a gap where it stands: a slash and a comment right behind
it would be a line comment, so no token may start a gap with what follows it. From any place on the
texts may be the same, so the first one need not consist of tokens to its end. -/
inductive Relaid : Option Lexeme → List Bool → List Char → List Char → Prop
  | token {previous : Option Lexeme} {braces : List Bool} {gap gap' w rest rest' : List Char}
      {l : Lexeme} (gaps : AlikeGaps previous gap gap')
      (lexeme : lexemeBehind previous braces (w ++ rest) = some (l, rest))
      (here : startsGap (w ++ rest) = false) (there : startsGap (w ++ rest') = false)
      (next : Relaid (some l) (nest braces l) rest rest') :
      Relaid previous braces (gap ++ (w ++ rest)) (gap' ++ (w ++ rest'))
  | same {previous : Option Lexeme} {braces : List Bool} {gap gap' : List Char}
      (gaps : AlikeGaps previous gap gap') (text : List Char) :
      Relaid previous braces (gap ++ text) (gap' ++ text)
  | last {previous : Option Lexeme} {braces : List Bool} {gap gap' : List Char}
      (old : IsGap true gap) (new : IsGap true gap') : Relaid previous braces gap gap'

section Fronts

variable {previous : Option Lexeme} {braces : List Bool} {cs cs' : List Char}

/-- Behind a token the texts are the same up to the next gap. -/
theorem Relaid.exists_front (h : Relaid previous braces cs cs') (hprevious : previous.isSome) :
    ∃ p q q', cs = p ++ q ∧ cs' = p ++ q' ∧ Opens isGapHead q ∧ Opens isGapHead q' := by
  induction h with
  | @token previous braces gap gap' w rest rest' l gaps lexeme here there next ih =>
    by_cases hgap : gap = []
    · obtain rfl := (gaps.parts hprevious).mp hgap
      subst hgap
      obtain ⟨p, q, q', rfl, rfl, hq, hq'⟩ := ih rfl
      exact ⟨w ++ p, q, q', by simp, by simp, hq, hq'⟩
    · have hgap' : gap' ≠ [] := mt (gaps.parts hprevious).mpr hgap
      exact ⟨[], _, _, rfl, rfl, gaps.old.opens.append hgap _, gaps.new.opens.append hgap' _⟩
  | @same previous braces gap gap' gaps text =>
    by_cases hgap : gap = []
    · obtain rfl := (gaps.parts hprevious).mp hgap
      subst hgap
      exact ⟨text, [], [], by simp, by simp, opens_nil, opens_nil⟩
    · have hgap' : gap' ≠ [] := mt (gaps.parts hprevious).mpr hgap
      exact ⟨[], _, _, rfl, rfl, gaps.old.opens.append hgap _, gaps.new.opens.append hgap' _⟩
  | last old new => exact ⟨[], _, _, rfl, rfl, old.opens, new.opens⟩

/-- A lexeme does not change when the text behind it is laid out anew. -/
theorem Relaid.lexemeBehind_eq {l l' : Lexeme} {w : List Char}
    (h : Relaid (some l') (nest braces l') cs cs')
    (hl : lexemeBehind previous braces (w ++ cs) = some (l, cs)) :
    lexemeBehind previous braces (w ++ cs') = some (l, cs') := by
  obtain ⟨p, q, q', rfl, rfl, hq, hq'⟩ := h.exists_front rfl
  exact lexeme_swap hq hq' hl

theorem Relaid.isMarkupComment_eq {l : Lexeme} (h : Relaid (some l) braces cs cs') (broken : Bool)
    (w : List Char) : isMarkupComment broken (w ++ cs) = isMarkupComment broken (w ++ cs') := by
  obtain ⟨p, q, q', rfl, rfl, hq, hq'⟩ := h.exists_front rfl
  rw [← List.append_assoc, ← List.append_assoc, isMarkupComment_append hq,
    isMarkupComment_append hq']

end Fronts

/-! Tokens. -/

/-- The tokens of the end of a text, without their places. -/
def placeless (size n : Nat) (previous : Option Lexeme) (braces : List Bool) (cs : List Char) :
    Option (List Token) :=
  (tokensFrom size n previous braces cs).map fun ts => ts.map (·.move fun _ => 0)

section Tokens

variable {size size' n m : Nat} {previous : Option Lexeme} {braces : List Bool}

/-- One step of the scanner. -/
theorem placeless_succ (cs : List Char) : placeless size (n + 1) previous braces cs =
    (Gap.skip .space previous.isNone cs).bind fun g =>
      if isMarkupComment g.1 g.2 then none else if g.2.isEmpty then some []
      else (lexemeBehind previous braces g.2).bind fun r =>
        (placeless size n (some r.1) (nest braces r.1) r.2).map fun ts =>
          ⟨r.1, 0, g.1, previous.isSome && g.2.length = cs.length⟩ :: ts := by
  unfold placeless
  rw [tokensFrom]
  cases Gap.skip .space previous.isNone cs with
  | none => rfl
  | some g =>
    simp only [Option.bind_eq_bind, Option.bind_some]
    split
    · rfl
    · split
      · rfl
      · show Option.map _ ((lexemeBehind previous braces g.2).bind _) = _
        cases lexemeBehind previous braces g.2 with
        | none => rfl
        | some r =>
          simp only [Option.bind_some]
          cases tokensFrom size n (some r.1) (nest braces r.1) r.2 <;> rfl

/-- Neither the size of the whole text nor the number of steps matters, if these are enough. -/
theorem placeless_eq {cs : List Char} (hn : cs.length < n) (hn' : cs.length < m) :
    placeless size n previous braces cs = placeless size' m previous braces cs := by
  induction n generalizing m previous braces cs with
  | zero => omega
  | succ n ih =>
    obtain ⟨m, rfl⟩ : ∃ j, m = j + 1 := ⟨m - 1, by omega⟩
    rw [placeless_succ, placeless_succ]
    apply Option.bind_congr
    intro g hg
    have hgap := (Gap.skip_suffix hg).length_le
    split
    · rfl
    · split
      · rfl
      · apply Option.bind_congr
        intro r hr
        have hlength := (takes_lexeme _ _ hr).2
        rw [ih (m := m) (by omega) (by omega)]

/-- Two texts that are scanned alike up to the ends of their first lexemes. -/
theorem placeless_congr {cs cs' rest rest' tail tail' : List Char} {broken : Bool} {l : Lexeme}
    (hskip : Gap.skip .space previous.isNone cs = some (broken, rest))
    (hskip' : Gap.skip .space previous.isNone cs' = some (broken, rest'))
    (hmarkup : isMarkupComment broken rest = isMarkupComment broken rest')
    (hl : lexemeBehind previous braces rest = some (l, tail))
    (hl' : lexemeBehind previous braces rest' = some (l, tail'))
    (hglued : previous.isSome → (rest.length = cs.length ↔ rest'.length = cs'.length))
    (hmore : placeless size n (some l) (nest braces l) tail =
      placeless size' m (some l) (nest braces l) tail') :
    placeless size (n + 1) previous braces cs = placeless size' (m + 1) previous braces cs' := by
  have hrest : rest ≠ [] := List.ne_nil_of_length_pos (Nat.zero_lt_of_lt (takes_lexeme _ _ hl).2)
  have hrest' : rest' ≠ [] := List.ne_nil_of_length_pos (Nat.zero_lt_of_lt (takes_lexeme _ _ hl').2)
  have hflag : (previous.isSome && decide (rest.length = cs.length)) =
      (previous.isSome && decide (rest'.length = cs'.length)) := by
    cases hprevious : previous.isSome with
    | false => rfl
    | true => simp [hglued hprevious]
  rw [placeless_succ, placeless_succ, hskip, hskip', Option.bind_some, Option.bind_some, hl, hl',
    Option.bind_some, Option.bind_some, hmore, hmarkup, hflag]
  simp [hrest, hrest']

/-- Behind gaps that may replace each other the same text has the same tokens. -/
theorem placeless_of_alikeGaps {gap gap' : List Char} (h : AlikeGaps previous gap gap')
    (text : List Char) (hn : (gap ++ text).length < n) (hn' : (gap' ++ text).length < m) :
    placeless size n previous braces (gap ++ text) =
      placeless size' m previous braces (gap' ++ text) := by
  obtain ⟨n, rfl⟩ : ∃ j, n = j + 1 := ⟨n - 1, by omega⟩
  obtain ⟨m, rfl⟩ : ∃ j, m = j + 1 := ⟨m - 1, by omega⟩
  rw [List.length_append] at hn hn'
  rw [placeless_succ, placeless_succ, h.skip_eq]
  apply Option.bind_congr
  intro g hg
  rw [h.new.skip_inner] at hg
  have hsuffix := Gap.skip_suffix hg
  have hlength := hsuffix.length_le
  have hflag : (previous.isSome && decide (g.2.length = (gap ++ text).length)) =
      (previous.isSome && decide (g.2.length = (gap' ++ text).length)) := by
    cases hprevious : previous.isSome with
    | false => rfl
    | true => simp only [h.length_eq_iff hprevious hsuffix hsuffix Iff.rfl]
  split
  · rfl
  · split
    · rfl
    · apply Option.bind_congr
      intro r hr
      have htakes := (takes_lexeme _ _ hr).2
      rw [hflag, placeless_eq (n := n) (m := m) (by omega) (by omega)]

/-- No token follows behind the last one. -/
theorem placeless_of_isGap {gap : List Char} (h : IsGap true gap) (hn : gap.length < n) :
    placeless size n previous braces gap = some [] := by
  obtain ⟨n, rfl⟩ : ∃ j, n = j + 1 := ⟨n - 1, by omega⟩
  have hskip : Gap.skip .space previous.isNone gap =
      some (previous.isNone || gap.any isLineBreak, []) :=
    Gap.skip_eq_some_iff.mpr ⟨rfl, true, gap, h, (List.append_nil gap).symm, fun _ => rfl, rfl⟩
  have hend (b : Bool) : isMarkupComment b [] = false := by cases b <;> decide
  rw [placeless_succ, hskip, Option.bind_some, hend]
  rfl

/-- Texts that are laid out anew have the same tokens, apart from their places. -/
theorem Relaid.placeless_eq {cs cs' : List Char} (h : Relaid previous braces cs cs')
    (hn : cs.length < n) (hn' : cs'.length < m) :
    placeless size n previous braces cs = placeless size' m previous braces cs' := by
  induction h generalizing n m with
  | @token previous braces gap gap' w rest rest' l gaps lexeme here there next ih =>
    obtain ⟨n, rfl⟩ : ∃ j, n = j + 1 := ⟨n - 1, by omega⟩
    obtain ⟨m, rfl⟩ : ∃ j, m = j + 1 := ⟨m - 1, by omega⟩
    have hlexeme := next.lexemeBehind_eq lexeme
    have htakes := (takes_lexeme _ _ lexeme).2
    have htakes' := (takes_lexeme _ _ hlexeme).2
    rw [List.length_append] at hn hn'
    have hskip : Gap.skip .space previous.isNone (gap ++ (w ++ rest)) =
        some (previous.isNone || gap.any isLineBreak, w ++ rest) := by
      rw [gaps.old.skip_inner, Gap.skip_of_not_startsGap here]
    have hskip' : Gap.skip .space previous.isNone (gap' ++ (w ++ rest')) =
        some (previous.isNone || gap.any isLineBreak, w ++ rest') := by
      rw [gaps.new.skip_inner, Gap.skip_of_not_startsGap there, gaps.broken_eq]
    apply placeless_congr hskip hskip' (next.isMarkupComment_eq _ w) lexeme hlexeme
    · intro hprevious
      apply gaps.length_eq_iff hprevious (List.suffix_refl _) (List.suffix_refl _)
      exact iff_of_true rfl rfl
    · exact ih (by omega) (by omega)
  | same gaps text => exact placeless_of_alikeGaps gaps text hn hn'
  | last old new => rw [placeless_of_isGap old hn, placeless_of_isGap new hn']

end Tokens

end Lexer
end ApiSurface.Source
