import ApiSurface.Proofs.LaidPieces
import ApiSurface.Proofs.SpelledModules
import ApiSurface.Proofs.TypeRules

/-! A type that stands by itself is read as the type of an alias. What such a text is read as is
told by its type alone, and the pieces of a type are read as the type. -/
namespace ApiSurface.Source
open Parse

/-- Tokens that say that a type with a name follows. -/
structure IsAliasFront (a b e : Token) : Prop where
  sort : a.lexeme = .word "type"
  name : b.lexeme = .word "__Rendered"
  sameLine : b.startsLine = false
  equals : e.lexeme = .symbol "="

/-- The text of an alias with the given characters of a type. -/
def aliasText (cs : List Char) : List Char :=
  "type".toList ++ ' ' :: ("__Rendered".toList ++ ' ' :: ("=".toList ++ ' ' :: (cs ++ [';', '\n'])))

theorem toList_alias (type : String) :
    ("type __Rendered = " ++ type ++ ";\n").toList = aliasText type.toList := by
  have hfront : "type __Rendered = ".toList =
      "type".toList ++ ' ' :: ("__Rendered".toList ++ ' ' :: ("=".toList ++ [' '])) := by decide
  have hend : ";\n".toList = [';', '\n'] := by decide
  rw [String.toList_append, String.toList_append, hfront, hend]
  simp only [aliasText, List.append_assoc, List.cons_append, List.nil_append]

/-! Tokens. -/

theorem tokens?_type (cs : List Char) : ∃ t : Token, t.lexeme = .word "type" ∧
    Lexer.tokens? ("type".toList ++ ' ' :: cs) = (Lexer.tokensFrom (cs.length + 5) (cs.length + 5)
      (some (.word "type")) (bracesOf []) (' ' :: cs)).map (t :: ·) := by
  have hname : IsName "type" := ⟨_, _, rfl, by decide, List.all_eq_true.1 (by decide)⟩
  have hread : Lexer.lexeme true false ("type".toList ++ ' ' :: cs) =
      some (.word "type", ' ' :: cs) := Lexer.lexeme_word hname (by decide)
  have hlength : ("type".toList ++ ' ' :: cs).length = cs.length + 5 := by
    rw [List.length_append, List.length_cons]
    exact Nat.add_comm 4 _
  have hskip : Gap.skip .space true ("type".toList ++ ' ' :: cs) =
      some (true, "type".toList ++ ' ' :: cs) := Gap.skip_of_not_startsGap rfl true
  have hcomment : Lexer.isMarkupComment true ("type".toList ++ ' ' :: cs) = false := rfl
  have hne : ("type".toList ++ ' ' :: cs).isEmpty = false := rfl
  have hnest : Lexer.nest [] (.word "type") = bracesOf [] := rfl
  refine ⟨⟨.word "type", cs.length + 5 - ("type".toList ++ ' ' :: cs).length, true, false⟩, rfl, ?_⟩
  show Lexer.tokensFrom ("type".toList ++ ' ' :: cs).length _ none []
    ("type".toList ++ ' ' :: cs) = _
  rw [hlength, Lexer.tokensFrom]
  simp only [Option.isNone_none, hskip, Option.bind_eq_bind, Option.bind_some, hcomment, hne,
    Option.map_none, Option.getD_none, List.head?_nil, hread, hnest]
  rw [hlength]
  cases Lexer.tokensFrom (cs.length + 5) (cs.length + 5) (some (.word "type")) (bracesOf [])
    (' ' :: cs) <;> rfl

/-- The tokens in front of the type are always the same. -/
theorem tokens?_aliasText (cs : List Char) : ∃ a b e, IsAliasFront a b e ∧
    ∃ m n, cs.length + 3 < n ∧ Lexer.tokens? (aliasText cs) =
      (Lexer.tokensFrom m n (some (.symbol "=")) (bracesOf []) (' ' :: (cs ++ [';', '\n']))).map
        (a :: b :: e :: ·) := by
  have hname : IsName "__Rendered" := ⟨_, _, rfl, by decide, List.all_eq_true.1 (by decide)⟩
  rw [aliasText]
  generalize hrest : ' ' :: (cs ++ [';', '\n']) = rest
  have hlength : rest.length = cs.length + 3 := by simp [← hrest]
  obtain ⟨more, hmore⟩ : ∃ more, rest = ' ' :: more := ⟨_, hrest.symm⟩
  have hthird : Lexed (.word "__Rendered") [] (' ' :: ("=".toList ++ rest)) (.symbol "=") rest := by
    rw [hmore]
    exact (Piece.lexed (p := Piece.symbol "=") rfl ⟨by simp, by simp⟩ rfl rfl).blank
  generalize hafter : ' ' :: ("=".toList ++ rest) = after at hthird ⊢
  have hsecond : Lexed (.word "type") [] (' ' :: ("__Rendered".toList ++ after))
      (.word "__Rendered") after := by
    rw [← hafter]
    exact (Piece.lexed (p := Piece.word "__Rendered") rfl ⟨hname, by decide⟩ rfl rfl).blank
  obtain ⟨a, ha, hatokens⟩ := tokens?_type ("__Rendered".toList ++ after)
  have hn : ("__Rendered".toList ++ after).length + 5 = cs.length + 18 + 1 + 1 := by
    have hten : "__Rendered".toList.length = 10 := by decide
    have hone : "=".toList.length = 1 := by decide
    rw [List.length_append, hten, ← hafter, List.length_cons, List.length_append, hone, hlength]
    omega
  rw [hn] at hatokens
  obtain ⟨b, hb, hline, hbtokens⟩ := hsecond.tokens (rfl : Lexeme.shift _ [] = some [])
    (cs.length + 18 + 1 + 1) (cs.length + 18 + 1)
  obtain ⟨e, he, -, hetokens⟩ := hthird.tokens (rfl : Lexeme.shift _ [] = some [])
    (cs.length + 18 + 1 + 1) (cs.length + 18)
  refine ⟨a, b, e, ⟨ha, hb, hline, he⟩, cs.length + 18 + 1 + 1, cs.length + 18, by omega, ?_⟩
  rw [hatokens, hbtokens, hetokens, Option.map_map, Option.map_map]
  rfl

/-- The tokens of a type that pieces spell are laid out behind those. -/
theorem tokens?_aliasText_spelled {ps : List Piece} (hf : Fits ps ';') (hp : ∀ p ∈ ps, p.isClean)
    (hs : Balanced (lexemes ps)) : ∃ a b e more, IsAliasFront a b e ∧
      Lexer.tokens? (aliasText (spelled ps)) = some (a :: b :: e :: more) ∧
      Laid (lexemes ps ++ [.symbol ";"]) more := by
  obtain ⟨a, b, e, hfront, m, n, hn, htokens⟩ := tokens?_aliasText (spelled ps)
  have hend : ∀ previous, Lays previous [] [';', '\n'] [.symbol ";"] := fun previous =>
    .lexeme (Piece.lexed (p := Piece.symbol ";") rfl ⟨by simp, by simp⟩ rfl rfl) rfl .newline
  have hlays := (lays_pieces hf hp (hs []) hend (.symbol "=")).blank
  obtain ⟨more, hmore, hlaid⟩ := hlays (m := m) (n := n) (by simp; omega)
  exact ⟨a, b, e, more, hfront, by rw [htokens, hmore]; rfl, hlaid⟩

/-! Rules. -/

namespace Grammar

variable {a b e : Token} (h : IsAliasFront a b e) (g : Grammar) (ts : List Token)

/-- What follows the name of an alias. -/
def aliasType (g : Grammar) : Parse Item := do
  let t ← g.type true
  endStatement
  pure (.typeAlias "__Rendered" t)

/-- A declaration is an item; where there is none, a statement is. -/
def behindDeclaration (g : Grammar) (start : Nat) : Option Item → Parse Item
  | some i => pure i
  | none => do
    g.plainStatement .top
    pure (.statement start)

include h

theorem aliasRest_front : g.aliasRest (b :: e :: ts) = g.aliasType ts := by
  obtain ⟨lb, ob, sb, jb⟩ := b
  obtain ⟨le, oe, se, je⟩ := e
  obtain ⟨-, rfl, rfl, rfl⟩ := h
  rfl

theorem declaration_front : g.declaration (a :: b :: e :: ts) =
    (some <$> g.aliasRest : Parse (Option Item)) (b :: e :: ts) := by
  obtain ⟨la, oa, sa, ja⟩ := a
  obtain ⟨lb, ob, sb, jb⟩ := b
  obtain ⟨rfl, rfl, rfl, -⟩ := h
  rfl

theorem itemRule_front : g.itemRule (a :: b :: e :: ts) = g.aliasType ts := by
  -- Neither a decorator nor an import stands in front, so that a declaration is tried.
  have hitem : g.itemRule (a :: b :: e :: ts) =
      (g.declaration >>= g.behindDeclaration a.offset) (a :: b :: e :: ts) := by
    obtain ⟨la, oa, sa, ja⟩ := a
    obtain ⟨lb, ob, sb, jb⟩ := b
    obtain ⟨rfl, rfl, -, -⟩ := h
    rfl
  rw [hitem, bind_apply, declaration_front h, map_apply, aliasRest_front h]
  cases g.aliasType ts <;> rfl

end Grammar

/-! Texts. -/

/-- The rules reach deeper than there are tokens. -/
theorem exists_depth (ts : List Token) : ∃ m, depthBound ts = m + 1 ∧ ts.length < m := by
  refine ⟨depthBound ts - 1, ?_, ?_⟩
  all_goals
    unfold depthBound
    omega

theorem item_grammar_succ (m : Nat) (ts : List Token) :
    (grammar (m + 1)).item ts = ((grammar m).governed ts).itemRule ts := rfl

theorem of_within {α : Type} {n : Nat} {p : Parse α} {ts : List Token} {r : α × List Token}
    (h : p.within n ts = some r) : p ts = some r := by
  unfold Parse.within at h
  split at h
  · exact h
  · cases h

theorem exists_of_during_cons {α : Type} {p : Ahead} {item : Parse α} {ts rest : List Token} {a : α}
    {as : List α} (h : during p item ts = some (a :: as, rest)) :
    ∃ mid, item ts = some (a, mid) := by
  cases repeats_of_during h with
  | more _ hitem _ => exact ⟨_, hitem⟩

/-- The type of an alias was read as a type, at some depth. -/
theorem type_of_parse? {cs : List Char} {name : String} {t : TypeTerm} {items : List Item}
    (h : parse? (aliasText cs) = some (.typeAlias name t :: items)) :
    ∃ m ts rest, (grammar m).type true ts = some (t, rest) := by
  obtain ⟨a, b, e, hfront, m, n, -, htokens⟩ := tokens?_aliasText cs
  rw [parse?, Option.bind_eq_bind, Option.bind_eq_some_iff] at h
  obtain ⟨ts, hts, hitems⟩ := h
  rw [htokens] at hts
  obtain ⟨more, -, rfl⟩ := Option.map_eq_some_iff.1 hts
  obtain ⟨m, hm, -⟩ := exists_depth (a :: b :: e :: more)
  rw [items?, hm, Option.map_eq_some_iff] at hitems
  obtain ⟨⟨is, rest⟩, hitems, rfl⟩ := hitems
  obtain ⟨mid, hitem⟩ := exists_of_during_cons hitems
  rw [item_grammar_succ, Grammar.itemRule_front hfront] at hitem
  obtain ⟨u, rest', hu, hend⟩ := bind_eq_some.1 hitem
  obtain ⟨_, _, -, he⟩ := bind_eq_some.1 hend
  cases he
  exact ⟨m, more, rest', of_within hu⟩

/-- A type that is read back is read in its own text. -/
theorem parse?_of_recalled {t : TypeTerm} {rest : List Token}
    (h : Recalled true (fun n => (grammar (n + 1)).type true) t rest) (ht : t.Spelled)
    (hp : ∀ p ∈ t.pieces, p.isClean) :
    ∃ u, parse? (aliasText (spelled t.pieces)) = some [.typeAlias "__Rendered" u] ∧
      u.erased = t.erased := by
  obtain ⟨a, b, e, more, hfront, htokens, hlaid⟩ :=
    tokens?_aliasText_spelled (ht.fits (by simp)) hp t.balanced
  obtain ⟨ts, last, hts, hlast, rfl⟩ := laid_append.1 hlaid
  obtain ⟨s, _, ⟨hs, -⟩, hnil, rfl⟩ := laid_cons.1 hlast
  obtain rfl := laid_nil.1 hnil
  obtain ⟨m, hm⟩ := exists_depth (a :: b :: e :: (ts ++ [s]))
  have hlength : (lexemes t.pieces).length < m := by
    have hlength := hts.length_eq
    have hdeep := hm.2
    simp only [List.length_cons, List.length_append, List.length_nil] at hdeep
    omega
  have hsemicolon : Ahead.symbol ";" [s] := Ahead.symbol_iff.2 ⟨s, [], rfl, hs⟩
  obtain ⟨u, hu, hread⟩ := h.type_closed hlength (closes_symbol (s := ";") (by simp)) hts hsemicolon
  refine ⟨u, ?_, hu⟩
  have hitem : (grammar (m + 1)).item (a :: b :: e :: (ts ++ [s])) =
      some (.typeAlias "__Rendered" u, []) := by
    rw [item_grammar_succ, Grammar.itemRule_front hfront]
    have htype : ((grammar m).governed (a :: b :: e :: (ts ++ [s]))).type true (ts ++ [s]) =
        some (u, [s]) := by
      exact (if_pos (by simp)).trans hread
    rw [Grammar.aliasType, bind_apply, htype, Option.bind_some, bind_apply, endStatement,
      if_pos hsemicolon]
    rfl
  rw [parse?, htokens, Option.bind_eq_bind, Option.bind_some, items?, hm.1,
    during_cons rfl hitem (by simp) (during_of_false rfl)]
  rfl

end ApiSurface.Source
