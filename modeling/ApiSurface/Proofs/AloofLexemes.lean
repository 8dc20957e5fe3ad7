import ApiSurface.Proofs.AloofScans
import Mathlib.Data.List.Find

/-! Lexemes in front of gaps. Words, numbers and symbols are aloof from the characters that open a
gap. -/
namespace ApiSurface.Source
open Text Text.Scan

/-! The characters that open a gap. -/

/-- White space, or the slash of a comment. -/
def isGapHead (c : Char) : Bool := isLineBreak c || isBlank c || c = '/'

/-- All of them. -/
def gapHeads : List Char :=
  ['\n', '\r', '\u2028', '\u2029'] ++
    ['\t', '\u000b', '\u000c', ' ', '\u00a0', '\u1680', '\u202f', '\u205f', '\u3000', '\ufeff'] ++
    (List.range' 0x2000 11).map Char.ofNat ++ ['/']

theorem mem_gapHeads {c : Char} (h : isGapHead c) : c ∈ gapHeads := by
  simp only [isGapHead, isLineBreak, isBlank, Bool.or_eq_true, List.contains_iff_mem,
    Bool.and_eq_true, decide_eq_true_eq] at h
  simp only [gapHeads, List.mem_append]
  rcases h with (h | h | ⟨hlow, hhigh⟩) | h
  · exact .inl (.inl (.inl h))
  · exact .inl (.inl (.inr h))
  · have hlow : 0x2000 ≤ c.toNat := hlow
    have hhigh : c.toNat ≤ 0x200a := hhigh
    refine .inl (.inr (List.mem_map.mpr ⟨c.toNat, ?_, Char.ofNat_toNat c⟩))
    rw [List.mem_range'_1]
    omega
  · exact .inr (List.mem_singleton.mpr h)

/-- A property of these characters is checked one by one. -/
theorem forall_isGapHead {P : Char → Prop} [DecidablePred P]
    (h : gapHeads.all (fun c => decide (P c)) = true) (c : Char) (hc : isGapHead c) : P c :=
  of_decide_eq_true (List.all_eq_true.mp h c (mem_gapHeads hc))

theorem isIdentifierPart_of_isGapHead : ∀ c, isGapHead c → isIdentifierPart c = false :=
  forall_isGapHead (by decide +kernel)

theorem isIdentifierStart_of_isGapHead : ∀ c, isGapHead c → isIdentifierStart c = false :=
  forall_isGapHead (by decide +kernel)

theorem noDigit_isGapHead : Escape.NoDigit isGapHead :=
  ⟨forall_isGapHead (by decide +kernel), by decide, by decide⟩

theorem ne_backslash_of_isGapHead : ∀ c, isGapHead c → c ≠ '\\' := forall_isGapHead (by decide)

/-! Identifiers. -/

theorem aloof_identifierChar {r : Char → Bool} (hr : ∀ c, isGapHead c → r c = false) :
    Aloof isGapHead (identifierChar r) := by
  apply Aloof.nextBind
  · intro c
    split
    · apply (Aloof.char (by decide)).bind
      intro _
      apply (Escape.aloof_unicode noDigit_isGapHead).bind
      intro n
      exact .ite (.pure _) .fail
    · exact .ite (.pure _) .fail
  · intro c hc
    split
    · exact absurd rfl (ne_backslash_of_isGapHead '\\' hc)
    · rw [hr c hc]
      rfl

theorem aloof_identifierRest (n : Nat) : Aloof isGapHead (identifierRest n) := by
  induction n with
  | zero => exact .fail
  | succ n ih =>
    apply Aloof.peekBind
    · intro c?
      split
      · exact .pure _
      · apply Aloof.ite
        · apply (aloof_identifierChar isIdentifierPart_of_isGapHead).bind
          intro d
          exact ih.bind fun ds => .pure _
        · exact .pure _
    · intro c hc
      exact if_neg (by simp [ne_backslash_of_isGapHead c hc, isIdentifierPart_of_isGapHead c hc])

theorem steady_identifierRest : Steady identifierRest := by
  intro n
  induction n with
  | zero => exact fun _ _ _ h => nomatch h
  | succ n ih =>
    intro m cs r h hm
    obtain ⟨m, rfl⟩ : ∃ j, m = j + 1 := ⟨m - 1, by omega⟩
    cases cs with
    | nil => exact h
    | cons c cs =>
      simp only [identifierRest, scan_bind_apply, peek?, List.head?_cons, Option.bind_some] at h ⊢
      split at h
      · next hc =>
        obtain ⟨d, mid, hd, h⟩ := scan_bind_eq_some.mp h
        obtain ⟨ds, rest, hds, h⟩ := scan_bind_eq_some.mp h
        have hlength := (takes_identifierChar _ hd).2
        rw [if_pos hc]
        exact scan_bind_eq_some.mpr ⟨d, mid, hd,
          scan_bind_eq_some.mpr ⟨ds, rest, ih hds (by omega), h⟩⟩
      · next hc =>
        rw [if_neg hc]
        exact h

theorem aloof_identifier : Aloof isGapHead identifier := by
  apply (aloof_identifierChar isIdentifierStart_of_isGapHead).bind
  intro c
  apply (Aloof.stepwise aloof_identifierRest steady_identifierRest).bind
  intro cs
  exact .pure _

/-! Numbers. -/

theorem isDigit_of_isGapHead : ∀ c, isGapHead c → c.isDigit = false := forall_isGapHead (by decide)

namespace Numeral

theorem aloof_digits {r : Char → Bool} (hr : ∀ c, isGapHead c → r c = false) :
    Aloof isGapHead (digits r) := by
  have hmark : ∀ c, isGapHead c → c ≠ '_' := forall_isGapHead (by decide)
  apply (Aloof.run ?_).bind
  · intro ds
    exact .ite (.pure _) .fail
  · intro c hc
    simp [hr c hc, hmark c hc]

theorem aloof_maybe {r : Char → Bool} (hr : ∀ c, isGapHead c → r c = false) :
    Aloof isGapHead (maybe r) := by
  intro x q hq
  have hfront (c : Char) (cs : List Char) :
      maybe r (c :: cs) = if r c then some ([c], cs) else some ([], c :: cs) := by
    by_cases hc : r c <;> simp [maybe, scan_bind_apply, peek?, hc] <;> rfl
  cases x with
  | nil =>
    cases q with
    | nil => rfl
    | cons c q =>
      rw [List.nil_append, hfront, hr c (opens_cons.mp hq)]
      rfl
  | cons c x =>
    rw [List.cons_append, hfront, hfront]
    split <;> rfl

theorem aloof_exponent : Aloof isGapHead exponent := by
  apply (aloof_maybe (forall_isGapHead (by decide))).bind
  intro mark
  split
  · exact .pure _
  · apply (aloof_maybe (forall_isGapHead (by decide))).bind
    intro sign
    apply (aloof_digits isDigit_of_isGapHead).bind
    intro ds
    exact .pure _

theorem aloof_fraction : Aloof isGapHead fraction := by
  have hmark : ∀ c, isGapHead c → c ≠ '_' := forall_isGapHead (by decide)
  apply Aloof.peekBind
  · intro c?
    split
    · exact .ite (aloof_digits isDigit_of_isGapHead) (.pure _)
    · exact .pure _
  · intro c hc
    exact if_neg (by simp [isDigit_of_isGapHead c hc, hmark c hc])

theorem aloof_integer (spelling : List Char) : Aloof isGapHead (integer spelling) := by
  apply (aloof_maybe (forall_isGapHead (by decide))).bind
  intro mark
  split <;> exact .pure _

theorem aloof_decimal : Aloof isGapHead decimal := by
  have hpoint : ∀ c, isGapHead c → decide (c = '.') = false := forall_isGapHead (by decide)
  apply (aloof_maybe hpoint).bind
  intro point
  split
  · apply (aloof_digits isDigit_of_isGapHead).bind
    intro whole
    apply Aloof.ite (Aloof.fail.bind fun _ => ?_) ?_
    all_goals
      apply (aloof_maybe hpoint).bind
      intro point
      split
      · apply aloof_exponent.bind
        intro e
        split
        · exact aloof_integer _
        · exact .pure _
      · exact aloof_fraction.bind fun _ => aloof_exponent.bind fun _ => .pure _
  · exact (aloof_digits isDigit_of_isGapHead).bind fun _ => aloof_exponent.bind fun _ => .pure _

theorem based?_of_isGapHead : ∀ c, isGapHead c → (based? c).isNone :=
  forall_isGapHead (by decide)

/-- The digits of no base open a gap. -/
theorem digit_of_based? {c : Char} {r : Char → Bool} (h : based? c = some r) :
    ∀ d, isGapHead d → r d = false := by
  unfold based? at h
  split at h <;> cases h <;> exact forall_isGapHead (by decide)

theorem literal_of_based? {c : Char} {r : Char → Bool} (h : based? c = some r) (cs : List Char) :
    literal ('0' :: c :: cs) = (digits r >>= fun ds => integer ('0' :: c :: ds)) cs := by
  simp only [literal, h]

theorem literal_eq_decimal {cs : List Char} (h : ∀ c ds, cs = '0' :: c :: ds → based? c = none) :
    literal cs = decimal cs := by
  unfold literal
  split
  · next c ds => rw [h c ds rfl]
  · rfl

theorem aloof_literal : Aloof isGapHead literal := by
  intro x q hq
  by_cases hbase : ∃ c r ds, x = '0' :: c :: ds ∧ based? c = some r
  · obtain ⟨c, r, ds, rfl, hc⟩ := hbase
    have hbased : Aloof isGapHead (digits r >>= fun ds => integer ('0' :: c :: ds)) :=
      (aloof_digits (digit_of_based? hc)).bind fun ds => aloof_integer _
    rw [List.cons_append, List.cons_append, literal_of_based? hc, literal_of_based? hc]
    exact hbased hq
  · have hx : ∀ c ds, x = '0' :: c :: ds → based? c = none := by
      intro c ds hds
      by_contra hc
      obtain ⟨r, hr⟩ := Option.ne_none_iff_exists'.mp hc
      exact hbase ⟨c, r, ds, hds, hr⟩
    have hxq : ∀ c ds, x ++ q = '0' :: c :: ds → based? c = none := by
      intro c ds hds
      rcases x with _ | ⟨d, _ | ⟨e, x⟩⟩
      · obtain rfl : q = '0' :: c :: ds := hds
        exact absurd (opens_cons.mp hq) (by decide)
      · obtain rfl : q = c :: ds := (List.cons.inj hds).2
        exact Option.isNone_iff_eq_none.mp (based?_of_isGapHead c (opens_cons.mp hq))
      · simp only [List.cons_append, List.cons.injEq] at hds
        obtain ⟨rfl, rfl, -⟩ := hds
        exact hx _ _ rfl
    rw [literal_eq_decimal hx, literal_eq_decimal hxq]
    exact aloof_decimal hq

theorem aloof_scan : Aloof isGapHead Numeral.scan := by
  apply aloof_literal.bind
  intro l
  apply Aloof.peekBind
  · intro c?
    split
    · exact .ite .fail (.pure _)
    · exact .pure _
  · intro c hc
    exact if_neg (by simp [ne_backslash_of_isGapHead c hc, isIdentifierPart_of_isGapHead c hc])

end Numeral

namespace Lexer

/-! Words and symbols. -/

theorem aloof_word : Aloof isGapHead word := by
  apply aloof_identifier.bind
  intro text
  exact .ite .fail (.pure _)

theorem takes_word : Takes word := takes_identifier.bind fun _ => .ite .fail (.pure _)

theorem opensChain_of_ne {c d : Char} (h : ¬(c = '?' ∧ d = '.')) (cs : List Char) :
    opensChain (c :: d :: cs) = false := by
  unfold opensChain
  split <;> simp_all

theorem two_le_of_opensChain {cs : List Char} (h : opensChain cs) : 2 ≤ cs.length := by
  unfold opensChain at h
  split at h <;> simp_all

/-- The symbol that is found stands at the front. -/
theorem prefix_of_find? {cs : List Char} {s : String}
    (h : symbols.find? (fun s => s.toList.isPrefixOf cs) = some s) : s.toList <+: cs :=
  List.isPrefixOf_iff_prefix.mp
    (List.find?_some (p := fun s : String => s.toList.isPrefixOf cs) h)

theorem takes_symbol : Takes symbol := by
  have hsymbols : ∀ s ∈ symbols, 0 < s.length := by decide
  intro cs rest l h
  unfold symbol at h
  split at h
  · next hchain =>
    cases h
    have hlength := two_le_of_opensChain hchain
    refine ⟨List.drop_suffix _ _, ?_⟩
    rw [List.length_drop]
    omega
  · obtain ⟨s, hs, h⟩ := Option.bind_eq_some_iff.mp h
    cases h
    have hpos := hsymbols s (List.mem_of_find?_eq_some hs)
    have hlength := (prefix_of_find? hs).length_le
    rw [String.length_toList] at hlength
    refine ⟨List.drop_suffix _ _, ?_⟩
    rw [List.length_drop]
    omega

section Symbols

variable {q : List Char} (hq : Opens isGapHead q)
include hq

theorem isPrefixOf_append_of_opens {xs : List Char} (hxs : xs.all (!isGapHead ·)) (x : List Char) :
    xs.isPrefixOf (x ++ q) = xs.isPrefixOf x := by
  induction xs generalizing x with
  | nil => simp
  | cons d xs ih =>
    obtain ⟨hd, hxs⟩ := Bool.and_eq_true_iff.mp hxs
    cases x with
    | cons c x => simp [List.isPrefixOf, ih hxs]
    | nil =>
      cases q with
      | nil => rfl
      | cons g q =>
        have hne : d ≠ g := by
          rintro rfl
          simp [opens_cons.mp hq] at hd
        simp [List.isPrefixOf, hne]

theorem opensChain_append_of_opens (c : Char) (x : List Char) :
    opensChain (c :: x ++ q) = opensChain (c :: x) := by
  have hpoint : ∀ g, isGapHead g → g ≠ '.' := forall_isGapHead (by decide)
  rcases x with _ | ⟨d, x⟩
  · cases q with
    | nil => rfl
    | cons g q =>
      have hg : ¬ (c = '?' ∧ g = '.') := fun h => hpoint g (opens_cons.mp hq) h.2
      exact (opensChain_of_ne hg q).trans (by simp [opensChain])
  · by_cases h : c = '?' ∧ d = '.'
    · obtain ⟨rfl, rfl⟩ := h
      rcases x with _ | ⟨e, x⟩
      · cases q with
        | nil => rfl
        | cons g q => simp [opensChain, isDigit_of_isGapHead g (opens_cons.mp hq)]
      · rfl
    · rw [List.cons_append, List.cons_append, opensChain_of_ne h, opensChain_of_ne h]

/-- Behind its first character a symbol is aloof from gaps. -/
theorem symbol_append (c : Char) (x : List Char) :
    symbol (c :: x ++ q) = (symbol (c :: x)).map fun r => (r.1, r.2 ++ q) := by
  have htail : ∀ s ∈ symbols, s.toList.tail.all (!isGapHead ·) := by decide
  have hfind : symbols.find? (fun s => s.toList.isPrefixOf (c :: x ++ q)) =
      symbols.find? fun s => s.toList.isPrefixOf (c :: x) := by
    apply List.find?_congr
    intro s hs
    have hs := htail s hs
    cases hchars : s.toList with
    | nil => rfl
    | cons d ds =>
      have hds : ds.all (!isGapHead ·) := by simpa [hchars] using hs
      simp only [List.cons_append, List.isPrefixOf]
      rw [isPrefixOf_append_of_opens hq hds]
  rw [symbol, symbol, opensChain_append_of_opens hq, hfind]
  split
  · next h => rw [List.drop_append_of_le_length (two_le_of_opensChain h), Option.map_some]
  · cases hs : symbols.find? fun s => s.toList.isPrefixOf (c :: x) with
    | none => rfl
    | some s =>
      have hdrop : (c :: x ++ q).drop s.length = (c :: x).drop s.length ++ q :=
        List.drop_append_of_le_length (prefix_of_find? hs).length_le
      exact congrArg (fun rest => some (Lexeme.symbol s, rest)) hdrop

theorem startsNumber_append_of_opens (c : Char) (x : List Char) :
    startsNumber (c :: x ++ q) = startsNumber (c :: x) := by
  by_cases hc : c = '.'
  · subst hc
    cases x with
    | cons d x => rfl
    | nil =>
      cases q with
      | nil => rfl
      | cons g q => exact isDigit_of_isGapHead g (opens_cons.mp hq)
  · have hplain (cs : List Char) : startsNumber (c :: cs) = c.isDigit := by
      unfold startsNumber
      split <;> simp_all
    rw [List.cons_append, hplain, hplain]

end Symbols

end Lexer
end ApiSurface.Source
