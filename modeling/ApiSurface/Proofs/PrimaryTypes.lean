import ApiSurface.Proofs.MemberTypes
import ApiSurface.Proofs.TupleTypes

/-! Types that stand by themselves are read back: names, literals, templates, and what stands in
brackets. What opens with a bracket or a literal ends where it ends, whatever follows. -/
namespace ApiSurface.Source
open Parse Piece

/-- What opens with neither a word nor a round bracket is an operand. -/
theorem opensOperand_of_head {l : Lexeme} {ls : List Lexeme} (h : opensType (l :: ls))
    (hg : Grouped (l :: ls)) (hw : ∀ w, l ≠ .word w) (hs : l ≠ .symbol "(") :
    OpensOperand (l :: ls) := by
  refine ⟨h, hg, fun ls' e => ?_, fun ls' e => ?_, fun ls' e => ?_⟩
  · cases e
    exact hw _ rfl
  · cases e
    exact hw _ rfl
  · cases e
    exact absurd rfl hs

namespace Grammar

variable {g : Grammar} {ts rest : List Token} {n : Nat} {k : List Token → Prop} {t : TypeTerm}

/-! Templates. -/

/-- The type of a hole was read. -/
def HoleRead (g : Grammar) : Hole → Prop
  | .mk t _ => ∃ ts mid, g.type true ts = some (t, mid)

theorem hole_yields : Yields g.hole fun h => g.HoleRead h.1 := by
  rintro ts ⟨hole, last⟩ rest h
  obtain ⟨t, mid, ht, h⟩ := bind_eq_some.1 h
  obtain ⟨l, mid', hl, h⟩ := bind_eq_some.1 h
  split at h
  · cases h
    exact ⟨_, _, ht⟩
  · cases h

theorem holes_eq_some {hs : List Hole} (h : g.holes ts = some (hs, rest)) :
    hs ≠ [] ∧ ∀ hole ∈ hs, g.HoleRead hole := by
  obtain ⟨⟨hs', finished⟩, mid, hgrow, e⟩ := map_eq_some.1 h
  cases e
  have hstep : ∀ s : List Hole × Bool, ((s.2 → s.1 ≠ []) ∧ ∀ hole ∈ s.1, g.HoleRead hole) →
      Yields (if s.2 then Pure.pure none
          else g.hole >>= fun h => Pure.pure (some (s.1 ++ [h.1], h.2)))
        (∀ s' ∈ ·, (s'.2 → s'.1 ≠ []) ∧ ∀ hole ∈ s'.1, g.HoleRead hole) := by
    rintro ⟨hs, finished⟩ ⟨-, hread⟩
    refine .ite (.pure nofun) (hole_yields.bind_of fun h hh => .pure fun s' e => ?_)
    cases e
    refine ⟨fun _ => by simp, fun hole hmem => ?_⟩
    obtain hmem | rfl : hole ∈ hs ∨ hole = h.1 := by simpa using hmem
    · exact hread _ hmem
    · exact hh
  obtain ⟨hne, hread⟩ := Yields.grow hstep ⟨by simp, by simp⟩ hgrow
  obtain ⟨mid', -, hstop⟩ := grows_of_grow hgrow
  cases finished with
  | true => exact ⟨hne rfl, hread⟩
  | false =>
    obtain ⟨_, _, -, e⟩ := bind_eq_some.1 hstop
    cases e

theorem hole_reads (hg : g.Recalls) {chunk : String} (hread : g.HoleRead (.mk t chunk))
    (hl : t.legible) (hn : (lexemes t.pieces).length < n) (closes : Bool) :
    Reads (grammar n).hole (lexemes t.pieces ++ [.template chunk false closes true]) k
      fun h => (∃ t', h.1 = .mk t' chunk ∧ t'.erased = t.erased) ∧ h.2 = closes := by
  obtain ⟨us, mid, ht⟩ := hread
  refine ((hg.type true ht hl).type_closed hn (k := fun ts => ∃ u us, ts = u :: us ∧
    u.lexeme.closes) fun _ h => h).bind (.head fun u us hu _ => ⟨u, us, rfl, by rw [hu]; rfl⟩)
    fun t' ht' => .next ?_
  exact .pure ⟨⟨t', rfl, ht'⟩, rfl⟩

theorem holes_back (hg : g.Recalls) {hs : List Hole} (hne : hs ≠ [])
    (hread : ∀ hole ∈ hs, g.HoleRead hole) (hl : holesLegible hs)
    (hn : (lexemes (holesPieces hs)).length ≤ n) :
    Reads (grammar n).holes (lexemes (holesPieces hs)) k
      (fun hs' => erasedHoles hs' = erasedHoles hs) := by
  have hgrows : ∀ (acc : List Hole) ⦃ts : List Token⦄ (rest : List Token),
      Laid (lexemes (holesPieces hs)) ts →
      ∃ hs', erasedHoles hs' = erasedHoles hs ∧
        Grows (fun s : List Hole × Bool => if s.2 then Pure.pure none
          else (grammar n).hole >>= fun h => Pure.pure (some (s.1 ++ [h.1], h.2)))
          (acc, false) (ts ++ rest) (acc ++ hs', true) rest := by
    induction hs with
    | nil => contradiction
    | cons hole hs ih =>
      obtain ⟨t, chunk⟩ := hole
      intro acc ts rest hts
      rw [holesLegible, Bool.and_eq_true] at hl
      have hls : lexemes (holesPieces (.mk t chunk :: hs)) = (lexemes t.pieces ++
          [.template chunk false hs.isEmpty true]) ++ lexemes (holesPieces hs) := by
        simp [holesPieces]
      rw [hls] at hts hn
      simp only [List.length_append, List.length_singleton] at hn
      obtain ⟨ts₁, ts₂, h₁, h₂, rfl⟩ := laid_append.1 hts
      have hfirst := hole_reads (k := fun _ => True) hg (hread (.mk t chunk) (by simp)) hl.1
        (n := n) (by omega) hs.isEmpty
      obtain ⟨⟨h, last⟩, ⟨⟨t', rfl, ht'⟩, rfl⟩, e⟩ := hfirst h₁ (r := ts₂ ++ rest) trivial
      have hstep : (if (acc, false).2 = true then Pure.pure none else
          (grammar n).hole >>= fun h => Pure.pure (some (acc ++ [h.1], h.2)) :
          Parse (Option (List Hole × Bool))) (ts₁ ++ ts₂ ++ rest) =
          some (some (acc ++ [.mk t' chunk], hs.isEmpty), ts₂ ++ rest) := by
        rw [if_neg (by simp), List.append_assoc]
        exact bind_eq_some.2 ⟨_, _, e, rfl⟩
      have hlength : (ts₂ ++ rest).length < (ts₁ ++ ts₂ ++ rest).length := by
        have := h₁.length_eq
        simp only [List.length_append, List.length_singleton] at this ⊢
        omega
      cases hs with
      | nil =>
        obtain rfl := laid_nil.1 h₂
        exact ⟨[.mk t' chunk], by simp [erasedHoles, ht'], .more hstep hlength .done⟩
      | cons hole' hs =>
        obtain ⟨hs', hs'', hgrows⟩ := ih (by simp) (fun h hh => hread h (by simp [hh])) hl.2
          (by omega) (acc ++ [.mk t' chunk]) rest h₂
        exact ⟨.mk t' chunk :: hs', by simp [erasedHoles, ht', hs''],
          .more hstep hlength (by simpa using hgrows)⟩
  intro ts rest hts hr
  obtain ⟨hs', herased, hgrows⟩ := hgrows [] rest hts
  exact ⟨hs', herased, map_eq_some.2 ⟨(hs', true), rest, grow_of_grows hgrows rfl, rfl⟩⟩

theorem template_back (hg : g.Recalls) (h : g.template ts = some (t, rest)) (hl : t.legible)
    (hn : (lexemes t.pieces).length ≤ n) :
    (∃ chunk closes ls, lexemes t.pieces = .template chunk true closes true :: ls) ∧
      t.tests = false ∧ Reads (grammar n).template (lexemes t.pieces) k (·.erased = t.erased) := by
  obtain ⟨l, mid, hl', h⟩ := bind_eq_some.1 h
  split at h
  · cases h
    exact ⟨⟨_, _, _, rfl⟩, rfl, .next (.pure rfl)⟩
  · next first =>
    obtain ⟨hs, mid', hhs, e⟩ := map_eq_some.1 h
    cases e
    obtain ⟨hne, hread⟩ := holes_eq_some hhs
    have hls : lexemes (TypeTerm.template first hs).pieces =
        .template first true false true :: lexemes (holesPieces hs) := by
      cases hs with
      | nil => contradiction
      | cons hole hs => simp [TypeTerm.pieces]
    rw [hls] at hn ⊢
    rw [TypeTerm.legible] at hl
    refine ⟨⟨_, _, _, rfl⟩, rfl, .next ?_⟩
    exact (holes_back hg hne hread hl (Nat.le_of_succ_le hn)).map fun hs' hs'' => by
      simp [TypeTerm.erased, hs'']
  · cases h

/-! Mapped types. -/

theorem mark_reads {p : Ahead} {l : Lexeme} {ps : List Piece} (m : Option Mark)
    (hps : lexemes ps = [l]) (hp : ∀ t ts, t.lexeme = l → p (t :: ts))
    (hl : l ≠ .symbol "+" ∧ l ≠ .symbol "-")
    (hk : ∀ ts, k ts → Ahead.symbol "+" ts = false ∧ Ahead.symbol "-" ts = false ∧ p ts = false) :
    Reads (mark (takes p)) (lexemes (markPieces ps m)) k (· = m) := by
  have hmodifier : Reads (takes p >>= fun b => require b >>= fun _ => Pure.pure m) [l] k (· = m) :=
    .takes (.head fun t ts ht _ => hp t ts ht) (.require rfl (.pure rfl))
  have hne : ∀ s, l ≠ .symbol s → Shows [l] k fun ts => Ahead.symbol s ts = false :=
    fun s hs => .head fun t ts ht _ => by simp [Ahead.symbol, Ahead.lexeme, ht, hs]
  obtain _ | _ | _ | _ := m
  · exact .takes_not (.nil fun ts hts => (hk ts hts).1) <|
      .takes_not (.nil fun ts hts => (hk ts hts).2.1) <|
      .takes_not (.nil fun ts hts => (hk ts hts).2.2) (.pure rfl)
  · rw [markPieces, hps]
    exact .takes_not (hne _ hl.1) <| .takes_not (hne _ hl.2) <|
      .takes (.head fun t ts ht _ => hp t ts ht) (.pure rfl)
  · rw [markPieces, lexemes_token, hps]
    exact .takes .symbol hmodifier
  · rw [markPieces, lexemes_token, hps]
    exact .takes_not (.symbol_ne (by simp)) <| .takes .symbol hmodifier

theorem mark_eq_some {p : Ahead} {m : Option Mark} (h : mark (takes p) ts = some (m, rest))
    (hm : m = none ∨ m = some .plain) :
    Ahead.symbolIn ["+", "-"] ts = false ∧ rest = if p ts then ts.tail else ts := by
  have hmark : ∀ {m' : Mark} {us : List Token}, m' ≠ .plain →
      (takes p >>= fun b => require b >>= fun _ => Pure.pure (some m')) us ≠ some (m, rest) := by
    intro m' us hne e
    obtain ⟨b, mid, -, e⟩ := bind_eq_some.1 e
    rw [require_bind] at e
    split at e
    · cases e
      simp [hne] at hm
    · cases e
  rcases takes_ite_eq_some.1 h with ⟨-, h⟩ | ⟨hplus, h⟩
  · exact absurd h (hmark nofun)
  rcases takes_ite_eq_some.1 h with ⟨-, h⟩ | ⟨hminus, h⟩
  · exact absurd h (hmark nofun)
  refine ⟨?_, ?_⟩
  · cases ts with
    | nil => rfl
    | cons t ts =>
      simp only [Ahead.symbol, Ahead.lexeme, beq_eq_false_iff_ne] at hplus hminus
      cases hl : t.lexeme with
      | symbol s =>
        have hp : s ≠ "+" := fun e => hplus (hl.trans (congrArg _ e))
        have hm : s ≠ "-" := fun e => hminus (hl.trans (congrArg _ e))
        simp [Ahead.symbolIn, Ahead.lexeme, hl, hp, hm]
      | _ => simp [Ahead.symbolIn, Ahead.lexeme, hl]
  · rcases takes_ite_eq_some.1 h with ⟨hp, h⟩ | ⟨hp, h⟩
    · cases h
      rw [if_pos hp]
    · cases h
      rw [if_neg (by simp [hp])]

/-- The name of a mapped type is looked at unless a sign stands in front. -/
theorem isReference_of_opensMapped {m : Option Mark} {mid us : List Token} {u : Token}
    {name : String} (ho : opensMapped ts) (h : mark (takesWord "readonly") ts = some (m, mid))
    (hm : m = none ∨ m = some .plain) (hmid : mid.tail = u :: us) (hu : u.lexeme = .word name) :
    isReference name := by
  obtain ⟨hsigns, hrest⟩ := mark_eq_some h hm
  have hkey : ((Ahead.symbol "[").before (Ahead.reference.before (Ahead.word "in"))) mid := by
    rw [hrest]
    unfold opensMapped at ho
    rw [hsigns, Bool.false_and, Bool.false_or] at ho
    split at ho <;> simp_all
  simp only [Ahead.before, hmid, Ahead.reference, Ahead.wordThat, Ahead.lexeme, hu,
    Bool.and_eq_true] at hkey
  exact hkey.2.1

theorem shows_opensMapped {m : Option Mark} {name : String} {ls : List Lexeme}
    (h : m = none ∨ m = some .plain → isReference name) :
    Shows (lexemes (markPieces [word "readonly", .blank] m) ++
      .symbol "[" :: .word name :: .word "in" :: ls) k fun ts => opensMapped ts := by
  have hkey : (m = none ∨ m = some .plain) → Shows (.symbol "[" :: .word name :: .word "in" :: ls) k
      fun ts => Ahead.symbolIn ["+", "-"] ts = false ∧ Ahead.word "readonly" ts = false ∧
        ((Ahead.symbol "[").before (Ahead.reference.before (Ahead.word "in"))) ts := by
    intro hm
    refine .cons (.cons (B := fun ts => Ahead.word "in" ts) .word
      (P := fun ts => (Ahead.reference.before (Ahead.word "in")) ts) fun t ts ht _ hts => ?_)
      fun t ts ht _ hts => ?_
    · simp [Ahead.before, Ahead.reference, Ahead.wordThat, Ahead.lexeme, ht, h hm, hts]
    · simp only [Ahead.before, Ahead.symbol, Ahead.symbolIn, Ahead.word, Ahead.lexeme, ht] at hts ⊢
      simp [hts]
  have hsign : ∀ s, s ∈ ["+", "-"] → Shows (.symbol s :: .word "readonly" :: .symbol "[" ::
      .word name :: .word "in" :: ls) k fun ts => opensMapped ts := by
    refine fun s hs => .cons (B := fun ts => Ahead.word "readonly" ts) .word
      fun t ts ht _ hts => ?_
    have hsigns : Ahead.symbolIn ["+", "-"] (t :: ts) := by
      simpa [Ahead.symbolIn, Ahead.lexeme, ht] using hs
    simp only [opensMapped, hsigns, List.tail_cons, hts, Bool.and_self, Bool.true_or]
  obtain _ | _ | _ | _ := m
  · refine (hkey (.inl rfl)).mono fun ts hts => ?_
    simp only [opensMapped, hts, Bool.false_and, Bool.false_or, Bool.false_eq_true, if_false]
  · refine .cons (hkey (.inr rfl)) fun t ts ht _ hts => ?_
    have : Ahead.word "readonly" (t :: ts) := Ahead.word_iff.2 ⟨t, ts, rfl, ht⟩
    simp only [opensMapped, this, if_true, List.tail_cons, hts, Bool.or_true]
  · exact hsign "+" (by simp)
  · exact hsign "-" (by simp)

theorem renamed_back (hg : g.Recalls) {t? : Option TypeTerm}
    (h : given (Ahead.word "as") (Parse.word "as" >>= fun _ => g.type true) ts = some (t?, rest))
    (hl : optionLegible t?)
    (hn : (lexemes (behindPieces [.blank, word "as", .blank] t?)).length < n) :
    Reads (given (Ahead.word "as") (Parse.word "as" >>= fun _ => (grammar n).type true))
      (lexemes (behindPieces [.blank, word "as", .blank] t?)) (fun ts => Ahead.symbol "]" ts)
      (fun u? => erasedOption u? = erasedOption t?) := by
  rcases given_eq_some.1 h with ⟨-, t, rfl, hread⟩ | ⟨-, rfl, -⟩
  · obtain ⟨_, us, -, -, ht⟩ := word_bind_eq_some.1 hread
    have hls : lexemes (behindPieces [.blank, word "as", .blank] (some t)) =
        .word "as" :: lexemes t.pieces := by simp [behindPieces]
    rw [hls] at hn ⊢
    rw [List.length_cons] at hn
    refine .given .word (.word ((hg.type true ht hl).type_closed (by omega)
      (closes_symbol (by simp)))) fun u hu => ?_
    simp [erasedOption, hu]
  · exact .given_not (fun ts hts => Ahead.word_of_symbol hts) rfl

theorem value_back (hg : g.Recalls) {t? : Option TypeTerm}
    (h : g.annotation true ts = some (t?, rest)) (hl : optionLegible t?)
    (hn : (lexemes (behindPieces [symbol ":", .blank] t?)).length < n) :
    Reads ( Grammar.annotation (grammar n) true) (lexemes (behindPieces [symbol ":", .blank] t?))
      (fun ts => Ahead.symbol "\x7d" ts) (fun u? => erasedOption u? = erasedOption t?) := by
  rcases given_eq_some.1 h with ⟨-, t, rfl, hread⟩ | ⟨-, rfl, -⟩
  · obtain ⟨_, us, -, -, ht⟩ := symbol_bind_eq_some.1 hread
    have hls : lexemes (behindPieces [symbol ":", .blank] (some t)) =
        .symbol ":" :: lexemes t.pieces := by simp [behindPieces]
    rw [hls] at hn ⊢
    rw [List.length_cons] at hn
    refine .given .symbol (.symbol ((hg.type true ht hl).type_closed (by omega)
      (closes_symbol (by simp)))) fun u hu => ?_
    simp [erasedOption, hu]
  · exact .given_not (fun ts hts => Ahead.symbol_of_symbol hts (by simp)) rfl

theorem mapped_back (hg : g.Recalls) (ho : opensMapped ts) (h : g.mapped ts = some (t, rest))
    (hl : t.legible) (hn : (lexemes t.pieces).length ≤ n) :
    (∃ ls, lexemes t.pieces = .symbol "\x7b" :: ls ∧ EndsGroup ls ∧
        Shows ls k (fun ts => opensMapped ts) ∧
        Reads (grammar n).mapped ls k (·.erased = t.erased)) ∧ t.tests = false := by
  obtain ⟨readonly, mid₁, hreadonly, h⟩ := bind_eq_some.1 h
  obtain ⟨_, us, rfl, -, h⟩ := symbol_bind_eq_some.1 h
  obtain ⟨name, mid₂, hname, h⟩ := bind_eq_some.1 h
  obtain ⟨_, _, -, -, h⟩ := word_bind_eq_some.1 h
  obtain ⟨keys, mid₃, hkeys, h⟩ := bind_eq_some.1 h
  obtain ⟨renamed, mid₄, hrenamed, h⟩ := bind_eq_some.1 h
  obtain ⟨_, _, -, -, h⟩ := symbol_bind_eq_some.1 h
  obtain ⟨isOptional, mid₅, -, h⟩ := bind_eq_some.1 h
  obtain ⟨value, mid₆, hvalue, h⟩ := bind_eq_some.1 h
  obtain ⟨_, mid₇, -, h⟩ := bind_eq_some.1 h
  obtain ⟨_, _, -, -, h⟩ := symbol_bind_eq_some.1 h
  cases h
  have href : readonly = none ∨ readonly = some .plain → isReference name := by
    intro hm
    obtain ⟨u, e, hu, -⟩ := wordThat_eq_some.1 hname
    exact isReference_of_opensMapped ho hreadonly hm e hu
  have hls : lexemes (TypeTerm.mapped readonly name keys renamed isOptional value).pieces =
      .symbol "\x7b" :: (lexemes (markPieces [word "readonly", .blank] readonly) ++
        .symbol "[" :: .word name :: .word "in" :: (lexemes keys.pieces ++
          (lexemes (behindPieces [.blank, word "as", .blank] renamed) ++ .symbol "]" ::
            (lexemes (markPieces [symbol "?"] isOptional) ++
              (lexemes (behindPieces [symbol ":", .blank] value) ++ [.symbol "\x7d"]))))) := by
    simp [TypeTerm.pieces]
  rw [hls] at hn ⊢
  simp only [List.length_append, List.length_cons] at hn
  simp only [TypeTerm.legible, Bool.and_eq_true] at hl
  refine ⟨⟨_, rfl, ?_, shows_opensMapped href, ?_⟩, rfl⟩
  · have hinner : Balanced (lexemes (markPieces [word "readonly", .blank] readonly) ++
        .symbol "[" :: .word name :: .word "in" :: (lexemes keys.pieces ++
          (lexemes (behindPieces [.blank, word "as", .blank] renamed) ++ .symbol "]" ::
            (lexemes (markPieces [symbol "?"] isOptional) ++
              lexemes (behindPieces [symbol ":", .blank] value))))) := fun s => by
      simp [nests_append, keys.balanced _,
        balanced_markPieces [word "readonly", .blank] (fun s => by simp) readonly _,
        balanced_markPieces [symbol "?"] (fun s => by simp) isOptional _,
        balanced_behind [.blank, word "as", .blank] (fun s => by simp) renamed _,
        balanced_behind [symbol ":", .blank] (fun s => by simp) value _]
    simpa using endsGroup_of_balanced hinner (c := "\x7d") (by simp)
  refine (mark_reads (p := Ahead.word "readonly") (l := .word "readonly") readonly rfl
    (fun t ts ht => Ahead.word_iff.2 ⟨t, ts, rfl, ht⟩) (by simp)
    (k := fun ts => Ahead.symbol "[" ts) fun ts hts =>
      ⟨Ahead.symbol_of_symbol hts (by simp), Ahead.symbol_of_symbol hts (by simp),
        Ahead.word_of_symbol hts⟩).bind .symbol ?_
  rintro _ rfl
  refine .symbol <| .anyWord <| .word <| ((hg.type true hkeys hl.1.1).type_closed (n := n)
    (by omega) (k := fun ts => Ahead.word "as" ts ∨ Ahead.symbol "]" ts) ?_).bind ?_
    fun keys' hkeys' => ?_
  · rintro ts (hts | hts)
    · obtain ⟨u, us, rfl, hu⟩ := Ahead.word_iff.1 hts
      exact ⟨u, us, rfl, by simp [hu, Lexeme.closes]⟩
    · exact closes_symbol (by simp) ts hts
  · cases renamed with
    | none => exact Shows.symbol.mono fun _ h => .inr h
    | some t => exact Shows.word.mono fun _ h => .inl h
  refine (renamed_back (n := n) hg hrenamed hl.1.2 (by omega)).bind .symbol
    fun renamed' hrenamed' => .symbol ?_
  refine (mark_reads (p := Ahead.symbol "?") (l := .symbol "?") isOptional rfl
    (fun t ts ht => Ahead.symbol_iff.2 ⟨t, ts, rfl, ht⟩) (by simp)
    (k := fun ts => Ahead.symbol ":" ts ∨ Ahead.symbol "\x7d" ts) fun ts hts => ?_).bind ?_ ?_
  · rcases hts with hts | hts <;>
      exact ⟨Ahead.symbol_of_symbol hts (by simp), Ahead.symbol_of_symbol hts (by simp),
        Ahead.symbol_of_symbol hts (by simp)⟩
  · cases value with
    | none => exact Shows.symbol.mono fun _ h => .inr h
    | some t => exact Shows.symbol.mono fun _ h => .inl h
  rintro _ rfl
  refine (value_back (n := n) hg hvalue hl.2 (by omega)).bind .symbol fun value' hvalue' => ?_
  refine Reads.bind_of_nil endStatement_reads .symbol fun _ _ => .symbol <| .pure ?_
  simp [TypeTerm.erased, hkeys', hrenamed', hvalue']

/-! Object types. -/

/-- What the braces of a mapped type open with, behind a modifier. -/
def mappedKey : Ahead := (Ahead.symbol "[").before (Ahead.reference.before (Ahead.word "in"))

theorem opensMapped_eq (ts : List Token) : opensMapped ts =
    (Ahead.symbolIn ["+", "-"] ts && Ahead.word "readonly" ts.tail ||
      if Ahead.word "readonly" ts then mappedKey ts.tail else mappedKey ts) := rfl

/-- Nothing here makes the braces in front a mapped type, with or without a modifier. -/
def NotMapped (ts : List Token) : Prop := opensMapped ts = false ∧ mappedKey ts = false

section

variable {w s : String} {ls : List Lexeme}

theorem notMapped_of_head {l : Lexeme} (h : l ∉ [.symbol "+", .symbol "-", .symbol "[",
    .word "readonly"]) : Shows (l :: ls) k NotMapped := by
  refine .head fun t ts ht _ => ?_
  simp only [List.mem_cons, List.not_mem_nil, or_false, not_or] at h
  have hkey : mappedKey (t :: ts) = false := by
    simp [mappedKey, Ahead.before, Ahead.symbol, Ahead.lexeme, ht, h]
  have hword : Ahead.word "readonly" (t :: ts) = false := by
    simp [Ahead.word, Ahead.lexeme, ht, h]
  have hsigns : Ahead.symbolIn ["+", "-"] (t :: ts) = false := by
    cases l <;> simp_all [Ahead.symbolIn, Ahead.lexeme]
  exact ⟨by simp [opensMapped_eq, hword, hsigns, hkey], hkey⟩

theorem notMapped_of_readonly (h : Shows ls k fun ts => mappedKey ts = false) :
    Shows (.word "readonly" :: ls) k NotMapped := by
  refine .cons h fun t ts ht _ hts => ?_
  have hword : Ahead.word "readonly" (t :: ts) := Ahead.word_iff.2 ⟨t, ts, rfl, ht⟩
  refine ⟨?_, by simp [mappedKey, Ahead.before, Ahead.symbol, Ahead.lexeme, ht]⟩
  have hsigns : Ahead.symbolIn ["+", "-"] (t :: ts) = false := by
    simp [Ahead.symbolIn, Ahead.lexeme, ht]
  simp [opensMapped_eq, hword, hsigns, hts]

theorem notMapped_of_bracket :
    Shows (.symbol "[" :: .word w :: .symbol s :: ls) k NotMapped := by
  refine .cons (.cons (B := fun ts => Ahead.word "in" ts = false) .symbol_not_word
    (P := fun ts => (Ahead.reference.before (Ahead.word "in")) ts = false) fun t ts _ _ hts => ?_)
    fun t ts ht _ hts => ?_
  · simp [Ahead.before, hts]
  · have hkey : mappedKey (t :: ts) = false := by
      simp only [mappedKey, Ahead.before, List.tail_cons, Bool.and_eq_false_imp] at hts ⊢
      exact fun _ => hts
    have hword : Ahead.word "readonly" (t :: ts) = false := by simp [Ahead.word, Ahead.lexeme, ht]
    have hsigns : Ahead.symbolIn ["+", "-"] (t :: ts) = false := by
      simp [Ahead.symbolIn, Ahead.lexeme, ht]
    exact ⟨by simp [opensMapped_eq, hword, hsigns, hkey], hkey⟩

theorem notMapped_of_key {key : Key} {b : Bool} (hkey : key.named) (hs : s ∈ [":", "("]) :
    Shows (lexemes key.value.keyPieces ++ (markedLexemes b ++ .symbol s :: ls)) k NotMapped := by
  obtain ⟨s', ls', e, hs'⟩ := markedLexemes_append b s ls
  have hmem : s' ≠ "[" := by
    rintro rfl
    simp only [List.mem_cons, List.not_mem_nil, or_false] at hs
    obtain hs' | ⟨-, rfl⟩ := hs'
    · simp at hs'
    · simp at hs
  rw [e]
  obtain ⟨w, e⟩ | ⟨v, e⟩ | ⟨n, e⟩ | ⟨w, v, ws, e⟩ := isKey_of_named hkey <;> rw [e]
  · by_cases hw : w = "readonly"
    · subst hw
      exact notMapped_of_readonly <| .head fun t ts ht _ => by
        simp [mappedKey, Ahead.before, Ahead.symbol, Ahead.lexeme, ht, hmem]
    · exact notMapped_of_head (by simp [hw])
  · exact notMapped_of_head (by simp)
  · exact notMapped_of_head (by simp)
  · rw [lexemes_dottedPieces]
    exact notMapped_of_bracket

theorem notMapped_of_readonlyLexemes {b : Bool} (h : Shows ls k NotMapped) :
    Shows (readonlyLexemes b ++ ls) k NotMapped := by
  cases b
  · exact h
  · exact notMapped_of_readonly (h.mono fun _ h => h.2)

/-- No member makes the braces around it a mapped type. -/
theorem shows_notMapped {m : Signature} (hl : m.legible) :
    Shows (lexemes m.pieces ++ ls) k NotMapped := by
  cases m with
  | property readonly key isOptional t =>
    rw [Signature.legible, Bool.and_eq_true] at hl
    rw [lexemes_property, List.append_assoc, List.append_assoc, List.append_assoc]
    exact notMapped_of_readonlyLexemes (notMapped_of_key hl.1 (by simp))
  | method key isOptional gs ps r =>
    simp only [Signature.legible, Bool.and_eq_true, and_assoc] at hl
    rw [lexemes_method, List.append_assoc, List.append_assoc]
    exact notMapped_of_key hl.1 (by simp)
  | getter key t => exact notMapped_of_head (by simp)
  | setter key p => exact notMapped_of_head (by simp)
  | call gs ps r o => exact notMapped_of_head (by simp)
  | construct gs ps r o => exact notMapped_of_head (by simp)
  | index readonly name keys t o =>
    rw [lexemes_index, List.append_assoc]
    exact notMapped_of_readonlyLexemes notMapped_of_bracket

end

theorem object_back (hg : g.Recalls) {ms : List Signature} (h : g.signatures ts = some (ms, rest))
    (hl : signaturesLegible ms) (hn : (lexemes (TypeTerm.object ms).pieces).length ≤ n) :
    (∃ ls, lexemes (TypeTerm.object ms).pieces = .symbol "\x7b" :: ls ∧ EndsGroup ls ∧
        Shows ls k (fun ts => opensMapped ts = false)) ∧
      Reads (grammar n).signatures (lexemes (TypeTerm.object ms).pieces) k
        (fun ms' => erasedSignatures ms' = erasedSignatures ms) := by
  have hls : lexemes (TypeTerm.object ms).pieces =
      .symbol "\x7b" :: (lexemes (commaPieces (signaturesPieces ms)) ++ [.symbol "\x7d"]) := by
    cases ms <;> simp [TypeTerm.pieces, signaturesPieces, commaPieces]
  rw [hls] at hn ⊢
  simp only [List.length_cons, List.length_append] at hn
  refine ⟨⟨_, rfl,
    endsGroup_of_balanced (balanced_commaPieces (balanced_signatures ms)) (by simp), ?_⟩,
    signatures_back hg h hl (by omega)⟩
  cases ms with
  | nil =>
    exact (notMapped_of_head (by simp)).mono fun _ h => h.1
  | cons m ms =>
    rw [signaturesPieces_eq_map, lexemes_commaPieces_map, intercalate_cons_eq_flatMap,
      List.append_assoc]
    exact (shows_notMapped (signaturesLegible_iff.1 hl m (by simp))).mono fun _ h => h.1

/-! Types that stand by themselves. -/

theorem bracketedType_back (hg : g.Recalls) (h : g.bracketedType ts = some (t, rest))
    (hl : t.legible) (hn : (lexemes t.pieces).length ≤ n) :
    (∃ s ls, lexemes t.pieces = .symbol s :: ls ∧ s ∈ ["(", "[", "\x7b"]) ∧
      OpensOperand (lexemes t.pieces) ∧ t.tests = false ∧
      Reads (grammar n).bracketedType (lexemes t.pieces) k (·.erased = t.erased) := by
  rcases takes_ite_eq_some.1 h with ⟨-, h⟩ | ⟨-, h⟩
  · obtain ⟨t', mid, ht, h⟩ := bind_eq_some.1 h
    obtain ⟨_, _, -, -, h⟩ := symbol_bind_eq_some.1 h
    cases h
    rw [TypeTerm.legible] at hl
    have hr := hg.type true ht hl
    have hls : lexemes (TypeTerm.parenthesized t').pieces =
        .symbol "(" :: (lexemes t'.pieces ++ [.symbol ")"]) := by
      simp [TypeTerm.pieces]
    rw [hls] at hn ⊢
    simp only [List.length_cons, List.length_append] at hn
    refine ⟨⟨_, _, rfl, by simp⟩, ⟨rfl, .of_head (by simp) (by simp), by simp, by simp, ?_⟩, rfl,
      .takes .symbol ?_⟩
    · rintro ls' e
      cases e
      exact ⟨_, [], rfl, hr.opens, hr.grouped, by simp⟩
    · exact (hr.type_closed (by omega) (closes_symbol (s := ")") (by simp))).bind .symbol
        fun t'' ht'' => .symbol (.pure (by simp [TypeTerm.erased, ht'']))
  rcases sees_ite_eq_some.1 h with ⟨-, h⟩ | ⟨-, h⟩
  · obtain ⟨⟨ls, hls, hends⟩, ht, hr⟩ := tuple_back (k := k) hg h hl hn
    rw [hls] at hr ⊢
    exact ⟨⟨_, _, rfl, by simp⟩,
      opensOperand_of_head rfl (.of_bracket hends) (by simp) (by simp), ht,
      .takes_not (.symbol_ne (by simp)) <| .sees true .symbol hr⟩
  rcases sees_ite_eq_some.1 h with ⟨ho, h⟩ | ⟨-, h⟩
  · obtain ⟨_, us, rfl, -, h⟩ := symbol_bind_eq_some.1 h
    obtain ⟨⟨ls, hls, hends, hshow, hr⟩, ht⟩ :=
      mapped_back (k := k) hg (Bool.and_eq_true_iff.1 ho).2 h hl hn
    rw [hls]
    refine ⟨⟨_, _, rfl, by simp⟩,
      opensOperand_of_head rfl (.of_bracket hends) (by simp) (by simp), ht,
      .takes_not (.symbol_ne (by simp)) <| .sees false (.symbol_ne (by simp)) <| .sees true ?_ <|
      .symbol hr⟩
    exact .cons hshow fun t ts ht _ hts => by
      simp [Ahead.before, Ahead.symbol, Ahead.lexeme, ht, hts]
  · obtain ⟨ms, mid, hms, e⟩ := map_eq_some.1 h
    cases e
    rw [TypeTerm.legible] at hl
    obtain ⟨⟨ls, hls, hends, hshow⟩, hr⟩ := object_back (k := k) hg hms hl hn
    rw [hls] at hr ⊢
    refine ⟨⟨_, _, rfl, by simp⟩,
      opensOperand_of_head rfl (.of_bracket hends) (by simp) (by simp), rfl,
      .takes_not (.symbol_ne (by simp)) <| .sees false (.symbol_ne (by simp)) <| .sees false ?_ <|
      hr.map fun ms' hms' => by simp [TypeTerm.erased, hms']⟩
    exact .cons hshow fun t ts ht _ hts => by simp [Ahead.before, hts]

/-! Literals. -/

/-- The type that a literal is by itself. -/
def literalTerm? : Lexeme → Option TypeTerm
  | .string v => some (.string v)
  | .number s => some (.number s)
  | .bigint s => some (.bigint s)
  | _ => none

theorem literal_reads {l : Lexeme} (h : literalTerm? l = some t) :
    Reads g.primaryType [l] k (· = t) := by
  have hhead : ∀ u us, u.lexeme = l → Ahead.anyWord (u :: us) = false ∧
      Ahead.symbolIn ["(", "[", "\x7b"] (u :: us) = false ∧ Ahead.symbol "-" (u :: us) = false ∧
        Ahead.template (u :: us) = false := by
    rintro u us rfl
    cases hu : u.lexeme <;> rw [hu] at h <;> cases h <;>
      simp [Ahead.anyWord, Ahead.wordThat, Ahead.symbolIn, Ahead.symbol, Ahead.template,
        Ahead.lexeme, hu]
  refine .sees false (.head fun u us hu _ => (hhead u us hu).1) <|
    .sees false (.head fun u us hu _ => (hhead u us hu).2.1) <|
    .sees false (.head fun u us hu _ => (hhead u us hu).2.2.1) <|
    .sees false (.head fun u us hu _ => (hhead u us hu).2.2.2) <| .next ?_
  cases l <;> cases h <;> exact .pure rfl

/-- A literal that may have a sign in its spelling. -/
theorem signed_recalled (literal : String → Lexeme) (term : String → TypeTerm) {s : String}
    (hpieces : (term s).pieces = signedPieces literal s) (htests : (term s).tests = false)
    (hplain : ∀ n k, Reads (grammar n).primaryType [literal s] k (· = term s))
    (hsigned : ∀ s' k, Reads negative [.symbol "-", literal s'] k (· = term ("-" ++ s')))
    (hopens : opensType [literal s]) (hw : ∀ w, literal s ≠ .word w)
    (hs : ∀ s', literal s ≠ .symbol s') :
    RecalledOperand (fun n => (grammar n).primaryType) ts (term s) rest := by
  have hcases : (∃ s', s = "-" ++ s' ∧ lexemes (term s).pieces = [.symbol "-", literal s']) ∨
      lexemes (term s).pieces = [literal s] := by
    rw [hpieces, signedPieces]
    split
    · next cs hcs =>
      refine .inl ⟨String.ofList cs, ?_, rfl⟩
      rw [← String.toList_inj, hcs]
      simp
    · exact .inr rfl
  obtain ⟨s', e, hls⟩ | hls := hcases
  · refine ⟨fun c m n _ => ?_, ?_, htests, fun w ls e => ?_⟩
    · rw [hls]
      refine .sees false (.head fun t ts ht _ => ?_) <| .sees false (.head fun t ts ht _ => ?_) <|
        .sees true .symbol <| (hsigned s' _).mono (fun _ h => h) fun t ht => by rw [ht, e]
      · simp [Ahead.anyWord, Ahead.wordThat, Ahead.lexeme, ht]
      · simp [Ahead.symbolIn, Ahead.lexeme, ht]
    · rw [hls]
      exact opensOperand_of_head rfl (.of_head (by simp) (by simp)) (by simp) (by simp)
    · rw [hls] at e
      cases e
  · refine ⟨fun c m n _ => ?_, ?_, htests, fun w ls e => ?_⟩
    · rw [hls]
      exact (hplain n _).mono (fun _ h => h) fun t ht => by rw [ht]
    · rw [hls]
      exact opensOperand_of_head hopens (.of_head hw fun s' _ => hs s') hw (hs _)
    · rw [hls] at e
      exact absurd (List.cons.inj e).1 (hw w)

theorem number_recalled {s : String} :
    RecalledOperand (fun n => (grammar n).primaryType) ts (.number s) rest :=
  signed_recalled .number .number rfl rfl
    (fun _ _ => literal_reads rfl)
    (fun _ _ => .symbol (.next (.pure rfl))) rfl nofun nofun

theorem bigint_recalled {s : String} :
    RecalledOperand (fun n => (grammar n).primaryType) ts (.bigint s) rest :=
  signed_recalled .bigint .bigint rfl rfl
    (fun _ _ => literal_reads rfl)
    (fun _ _ => .symbol (.next (.pure rfl))) rfl nofun nofun

/-! Types that stand by themselves. -/

theorem primaryType_back (hg : g.Recalls) (h : g.primaryType ts = some (t, rest)) (hl : t.legible) :
    RecalledOperand (fun n => (grammar n).primaryType) ts t rest := by
  rcases sees_ite_eq_some.1 h with ⟨-, h⟩ | ⟨-, h⟩
  · obtain ⟨⟨w, ls, hls⟩, hr⟩ := namedType_back hg h hl
    refine { hr with back := fun c m n hn => .sees true ?_ (hr.back c hn) }
    rw [hls]
    exact .head fun t ts ht _ => by simp [Ahead.anyWord, Ahead.wordThat, Ahead.lexeme, ht]
  rcases sees_ite_eq_some.1 h with ⟨-, h⟩ | ⟨-, h⟩
  · obtain ⟨⟨s, ls, hls, hs⟩, ho, ht, -⟩ :=
      bracketedType_back (k := fun _ => True) hg h hl (Nat.le_refl _)
    refine ⟨fun c m n hn => .sees false ?_ <| .sees true ?_
      (bracketedType_back hg h hl (by omega)).2.2.2, ho, ht, fun w ls e => ?_⟩
    · rw [hls]
      exact .head fun t ts ht _ => by simp [Ahead.anyWord, Ahead.wordThat, Ahead.lexeme, ht]
    · rw [hls]
      exact .head fun t ts ht _ => by simpa [Ahead.symbolIn, Ahead.lexeme, ht] using hs
    · rw [hls] at e
      cases e
  rcases sees_ite_eq_some.1 h with ⟨-, h⟩ | ⟨-, h⟩
  · obtain ⟨_, us, -, -, h⟩ := symbol_bind_eq_some.1 h
    obtain ⟨l, mid, -, h⟩ := bind_eq_some.1 h
    split at h
    · cases h
      exact number_recalled
    · cases h
      exact bigint_recalled
    · cases h
  rcases sees_ite_eq_some.1 h with ⟨-, h⟩ | ⟨-, h⟩
  · obtain ⟨⟨chunk, closes, ls, hls⟩, ht, -⟩ :=
      template_back (k := fun _ => True) hg h hl (Nat.le_refl _)
    refine ⟨fun c m n hn => .sees false ?_ <| .sees false ?_ <| .sees false ?_ <| .sees true ?_
      (template_back hg h hl (by omega)).2.2, ?_, ht, fun w ls e => ?_⟩
    · rw [hls]
      exact .head fun t ts ht _ => by simp [Ahead.anyWord, Ahead.wordThat, Ahead.lexeme, ht]
    · rw [hls]
      exact .head fun t ts ht _ => by simp [Ahead.symbolIn, Ahead.lexeme, ht]
    · rw [hls]
      exact .head fun t ts ht _ => by simp [Ahead.symbol, Ahead.lexeme, ht]
    · rw [hls]
      exact .head fun t ts ht _ => by simp [Ahead.template, Ahead.lexeme, ht]
    · rw [hls]
      exact opensOperand_of_head rfl (.of_head (by simp) (by simp)) (by simp) (by simp)
    · rw [hls] at e
      cases e
  obtain ⟨l, mid, -, h⟩ := bind_eq_some.1 h
  split at h
  · cases h
    exact ⟨fun c m n _ => (literal_reads rfl).mono (fun _ h => h) fun t ht => by rw [ht],
      opensOperand_of_head rfl (.of_head (by simp) (by simp)) (by simp) (by simp), rfl,
      fun w ls e => by cases e⟩
  · cases h
    exact number_recalled
  · cases h
    exact bigint_recalled
  · cases h

end Grammar
end ApiSurface.Source
