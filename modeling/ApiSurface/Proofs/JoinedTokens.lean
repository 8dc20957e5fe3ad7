import ApiSurface.Proofs.ClosedLexemes
import ApiSurface.Proofs.Frames
import ApiSurface.Proofs.Gaps

/-! The tokens of two texts, the second in a new line behind the first. Where the first text ends in
a semicolon and its brackets match, its tokens are followed by those of the second, and these are
only moved: nothing that the scanner knows of the first text matters behind such a semicolon. -/
namespace ApiSurface.Source

/-! Holes of templates. -/

/-- The braces among the brackets that are open. -/
def bracesOf (s : List Bracket) : List Bool :=
  s.filterMap fun
    | .curly => some false
    | .hole => some true
    | .round | .square => none

theorem nest_bracesOf {l : Lexeme} {s s' : List Bracket} (h : l.shift s = some s') :
    Lexer.nest (bracesOf s) l = bracesOf s' := by
  cases l with
  | symbol x =>
    by_cases hx : (Lexeme.symbol x).isPlain
    · rw [Lexeme.shift_of_isPlain hx] at h
      cases h
      rw [Lexeme.isPlain_symbol] at hx
      unfold Lexer.nest
      split <;> simp_all
    · simp only [Lexeme.isPlain_symbol, Bool.not_eq_true', Bool.not_eq_false, List.contains_iff_mem,
        List.mem_cons, List.not_mem_nil, or_false] at hx
      rcases hx with rfl | rfl | rfl | rfl | rfl | rfl | rfl
      all_goals
        rcases s with _ | ⟨b, s⟩
        · cases h <;> rfl
        · cases b <;> cases h <;> rfl
  | template chunk opens closes sound =>
    rcases s with _ | ⟨b, s⟩
    · cases opens <;> cases closes <;> cases h <;> rfl
    · cases b <;> cases opens <;> cases closes <;> cases h <;> rfl
  | _ =>
    cases h
    rfl

/-! Tokens. -/

namespace Lexer

variable {size n : Nat} {previous : Option Lexeme} {braces : List Bool} {cs : List Char}

/-- The lexeme behind a gap. -/
def lexemeBehind (previous : Option Lexeme) (braces : List Bool) : Text.Scan Lexeme :=
  lexeme ((previous.map Lexeme.awaitsOperand).getD true) (braces.head?.getD false)

theorem tokensFrom_eq_some {ts : List Token} :
    tokensFrom size (n + 1) previous braces cs = some ts ↔
      ∃ broken rest, Gap.skip .space previous.isNone cs = some (broken, rest) ∧
        isMarkupComment broken rest = false ∧
        (rest = [] ∧ ts = [] ∨
          rest ≠ [] ∧ ∃ l rest' more,
            lexemeBehind previous braces rest = some (l, rest') ∧
            tokensFrom size n (some l) (nest braces l) rest' = some more ∧
            ts = ⟨l, size - rest.length, broken,
              previous.isSome && rest.length = cs.length⟩ :: more) := by
  simp only [tokensFrom, Option.bind_eq_bind, Option.bind_eq_some_iff]
  constructor
  · rintro ⟨⟨broken, rest⟩, hgap, h⟩
    split at h
    · cases h
    next hmarkup =>
    refine ⟨broken, rest, hgap, by simpa using hmarkup, ?_⟩
    split at h
    · next hrest =>
      cases h
      exact .inl ⟨List.isEmpty_iff.1 hrest, rfl⟩
    · next hrest =>
      obtain ⟨⟨l, rest'⟩, hl, h⟩ := Option.bind_eq_some_iff.1 h
      obtain ⟨more, hmore, h⟩ := Option.bind_eq_some_iff.1 h
      cases h
      exact .inr ⟨fun e => hrest (by rw [e]; rfl), l, rest', more, hl, hmore, rfl⟩
  · rintro ⟨broken, rest, hgap, hmarkup, ⟨rfl, rfl⟩ | ⟨hrest, l, rest', more, hl, hmore, rfl⟩⟩
    · exact ⟨_, hgap, by simp [hmarkup]⟩
    · refine ⟨_, hgap, ?_⟩
      simp only [hmarkup, Bool.false_eq_true, if_false, List.isEmpty_iff, hrest]
      exact Option.bind_eq_some_iff.2 ⟨_, hl, Option.bind_eq_some_iff.2 ⟨more, hmore, rfl⟩⟩

/-- The lexeme leaves an end of the text. -/
theorem suffix_of_lexemeBehind {rest rest' : List Char} {broken : Bool} {l : Lexeme}
    (hgap : Gap.skip .space previous.isNone cs = some (broken, rest))
    (hl : lexemeBehind previous braces rest = some (l, rest')) : rest' <:+ cs :=
  (takes_lexeme _ _ hl).1.trans (Gap.skip_suffix hgap)

/-- With more steps and farther from the beginning, the same tokens are read at other places. -/
theorem tokensFrom_later {ts : List Token} (h : tokensFrom size n previous braces cs = some ts)
    (hsize : cs.length ≤ size) {m : Nat} (hm : n ≤ m) (d : Nat) :
    tokensFrom (size + d) m previous braces cs = some (ts.map (·.move (· + d))) := by
  induction n generalizing m previous braces cs ts with
  | zero => cases h
  | succ n ih =>
    obtain ⟨m, rfl⟩ : ∃ j, m = j + 1 := ⟨m - 1, by omega⟩
    obtain ⟨broken, rest, hgap, hmarkup, hread⟩ := tokensFrom_eq_some.1 h
    refine tokensFrom_eq_some.2 ⟨broken, rest, hgap, hmarkup, ?_⟩
    obtain ⟨rfl, rfl⟩ | ⟨hrest, l, rest', more, hl, hmore, rfl⟩ := hread
    · exact .inl ⟨rfl, rfl⟩
    · have hlength := (suffix_of_lexemeBehind hgap hl).length_le
      have hfront := (Gap.skip_suffix hgap).length_le
      refine .inr ⟨hrest, l, rest', _, hl, ih hmore (by omega) (by omega), ?_⟩
      rw [List.map_cons, Token.move, Nat.sub_add_comm (by omega)]

/-- What is read behind a semicolon outside of all braces is read like a text of its own. -/
theorem tokensFrom_newLine {bs : List Char} {ts : List Token}
    (h : tokensFrom bs.length n none [] bs = some ts) (d : Nat) {m : Nat} (hm : n ≤ m)
    {cs : List Char} (hcs : Gap.skip .space false (cs ++ '\n' :: bs) = Gap.skip .space true bs) :
    tokensFrom (bs.length + d) m (some (.symbol ";")) [] (cs ++ '\n' :: bs) =
      some (ts.map (·.move (· + d))) := by
  obtain ⟨n, rfl⟩ : ∃ j, n = j + 1 := by
    cases n with
    | zero => cases h
    | succ n => exact ⟨n, rfl⟩
  obtain ⟨m, rfl⟩ : ∃ j, m = j + 1 := ⟨m - 1, by omega⟩
  obtain ⟨broken, rest, hgap, hmarkup, hread⟩ := tokensFrom_eq_some.1 h
  refine tokensFrom_eq_some.2 ⟨broken, rest, hcs.trans hgap, hmarkup, ?_⟩
  have hfront := (Gap.skip_suffix hgap).length_le
  obtain ⟨rfl, rfl⟩ | ⟨hrest, l, rest', more, hl, hmore, rfl⟩ := hread
  · exact .inl ⟨rfl, rfl⟩
  · have hlength := (suffix_of_lexemeBehind hgap hl).length_le
    refine .inr ⟨hrest, l, rest', _, hl, tokensFrom_later hmore hlength (by omega) d, ?_⟩
    have hglued : rest.length ≠ cs.length + (bs.length + 1) := by omega
    rw [List.map_cons, Token.move, Nat.sub_add_comm hfront]
    simp [hglued]

theorem opens_newLine (bs : List Char) : Opens isGapHead ('\n' :: bs) := opens_cons.mpr (by decide)

theorem isMarkupComment_append {q : List Char} (hq : Opens isGapHead q) (broken : Bool)
    (cs : List Char) : isMarkupComment broken (cs ++ q) = isMarkupComment broken cs := by
  rw [isMarkupComment, isMarkupComment, isPrefixOf_append_of_opens hq (by decide),
    isPrefixOf_append_of_opens hq (by decide)]

/-- The tokens of a text are followed by those of a second one, if the first ends in a semicolon
and all its brackets match. -/
theorem tokensFrom_append {bs : List Char} {ts ts' : List Token} {m : Nat}
    (hb : tokensFrom bs.length m none [] bs = some ts') {s : List Bracket}
    (ha : tokensFrom size n previous (bracesOf s) cs = some ts) (hsize : cs.length ≤ size)
    (hs : brackets s ts = some [])
    (hlast : (ts.getLast?.map Token.lexeme).or previous = some (.symbol ";")) {k : Nat}
    (hk : n + m ≤ k) :
    tokensFrom (size + 1 + bs.length) k previous (bracesOf s) (cs ++ '\n' :: bs) =
      some (ts ++ ts'.map (·.move (· + (size + 1)))) := by
  induction n generalizing k previous s cs ts with
  | zero => cases ha
  | succ n ih =>
    obtain ⟨broken, rest, hgap, hmarkup, hread⟩ := tokensFrom_eq_some.1 ha
    have hjoined := Gap.skip_append hgap bs
    obtain ⟨rfl, rfl⟩ | ⟨hrest, l, rest', more, hl, hmore, rfl⟩ := hread
    · rw [brackets_nil, Option.some.injEq] at hs
      subst hs
      obtain rfl : previous = some (.symbol ";") := by simpa using hlast
      rw [Nat.add_comm (size + 1)]
      exact tokensFrom_newLine hb (size + 1) (by omega) (hjoined.trans (if_pos rfl))
    · obtain ⟨k, rfl⟩ : ∃ j, k = j + 1 := ⟨k - 1, by omega⟩
      obtain ⟨s', hshift, hs⟩ := Option.bind_eq_some_iff.1 hs
      rw [nest_bracesOf hshift] at hmore
      have hlength := (suffix_of_lexemeBehind hgap hl).length_le
      have hfront := (Gap.skip_suffix hgap).length_le
      have hlast : (more.getLast?.map Token.lexeme).or (some l) = some (.symbol ";") := by
        cases more with
        | nil => simpa using hlast
        | cons t more => simpa [List.getLast?_cons] using hlast
      have hl : lexemeBehind previous (bracesOf s) (rest ++ '\n' :: bs) =
          some (l, rest' ++ '\n' :: bs) := lexeme_append hl (opens_newLine bs)
      have hmore := ih hmore (by omega) hs hlast (k := k) (by omega)
      rw [← nest_bracesOf hshift] at hmore
      refine tokensFrom_eq_some.2 ⟨broken, rest ++ '\n' :: bs, hjoined.trans (if_neg hrest),
        (isMarkupComment_append (opens_newLine bs) ..).trans hmarkup,
        .inr ⟨by simp, l, _, _, hl, hmore, ?_⟩⟩
      have hoffset :
          size + 1 + bs.length - (rest.length + (bs.length + 1)) = size - rest.length := by
        omega
      simp [hoffset]

/-! Whole texts. -/

theorem skipInterpreter_suffix (cs : List Char) : skipInterpreter cs <:+ cs := by
  unfold skipInterpreter
  split
  · exact (List.dropWhile_suffix _).trans ((List.suffix_cons _ _).trans (List.suffix_cons _ _))
  · exact List.suffix_refl _

theorem skipInterpreter_eq_self {cs : List Char} (h : ¬['#', '!'] <+: cs) :
    skipInterpreter cs = cs := by
  unfold skipInterpreter
  split
  · exact absurd ⟨_, rfl⟩ h
  · rfl

theorem skipInterpreter_append (cs bs : List Char) :
    skipInterpreter (cs ++ '\n' :: bs) = skipInterpreter cs ++ '\n' :: bs := by
  by_cases h : ['#', '!'] <+: cs
  · obtain ⟨cs, rfl⟩ := h
    have hrun : Aloof isLineBreak (Text.Scan.run fun c => !isLineBreak c) :=
      Aloof.run fun c hc => by rw [hc, Bool.not_true]
    have hline := hrun (x := cs) (opens_cons.mpr rfl : Opens isLineBreak ('\n' :: bs))
    exact (Prod.mk.inj (Option.some.inj hline)).2
  · have happend : ¬['#', '!'] <+: cs ++ '\n' :: bs := by
      rw [← List.isPrefixOf_iff_prefix] at h ⊢
      rwa [isPrefixOf_append_of_opens (opens_newLine bs) (by decide)]
    rw [skipInterpreter_eq_self h, skipInterpreter_eq_self happend]

/-- The tokens of two texts, the second in a new line behind the first. -/
theorem tokens?_append {cs bs : List Char} {ts ts' : List Token} (ha : tokens? cs = some ts)
    (hb : tokens? bs = some ts') (hs : brackets [] ts = some [])
    (hlast : ts.getLast?.map Token.lexeme = some (.symbol ";")) (hbs : ¬['#', '!'] <+: bs) :
    tokens? (cs ++ '\n' :: bs) = some (ts ++ ts'.map (·.move (· + (cs.length + 1)))) := by
  have hlength : (cs ++ '\n' :: bs).length = cs.length + 1 + bs.length := by
    rw [List.length_append, List.length_cons]
    omega
  rw [tokens?, skipInterpreter_eq_self hbs] at hb
  rw [tokens?, skipInterpreter_append, hlength]
  exact tokensFrom_append hb (s := []) ha (skipInterpreter_suffix cs).length_le hs
    (by simp [hlast]) (by omega)

end Lexer
end ApiSurface.Source
