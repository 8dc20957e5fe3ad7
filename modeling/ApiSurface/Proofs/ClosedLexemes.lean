import ApiSurface.Proofs.AloofLexemes

/-! Lexemes that tell where they end. Strings, templates and the bodies of regular expressions end
where they say, and all other lexemes are aloof from gaps. So a lexeme is the same whatever gap
stands behind it, or behind some text that follows it. -/
namespace ApiSurface.Source.Lexer
open Text Text.Scan

/-! Strings, templates and regular expressions. -/

/-- A character that ends a string or a piece of a template, or that opens its end. -/
def isMark (c : Char) : Bool := ['"', '\'', '\x60', '$'].contains c

theorem noDigit_isMark : Escape.NoDigit isMark := by
  refine ⟨fun c hc => ?_, by decide, by decide⟩
  simp only [isMark, List.contains_iff_mem, List.mem_cons, List.not_mem_nil, or_false] at hc
  rcases hc with rfl | rfl | rfl | rfl <;> rfl

/-- In front of a mark an escape does not depend on what follows the mark. -/
theorem unit_mark {c d : Char} (hd : isMark d) {x y rest : List Char} {u : Option Nat}
    (h : Escape.unit (c :: x ++ d :: rest) = some (u, y ++ d :: rest)) (more : List Char) :
    Escape.unit (c :: x ++ d :: more) = some (u, y ++ d :: more) := by
  have happend (more : List Char) := Escape.unit_append noDigit_isMark (by decide) c (x := x)
    (opens_cons.mpr hd : Opens isMark (d :: more))
  exact swap_of_append (happend rest) (happend more) h

theorem stringUnits_backslash (quote : Char) (n : Nat) (cs : List Char) :
    stringUnits quote (n + 1) ('\\' :: cs) = (Escape.unit cs).bind fun r =>
      (stringUnits quote n r.2).map fun s => (r.1.toList ++ s.1, s.2) := by
  show (Escape.unit cs).bind _ = _
  apply Option.bind_congr
  intro r _
  show (stringUnits quote n r.2).bind _ = _
  cases stringUnits quote n r.2 <;> rfl

theorem stringUnits_cons {c : Char} (hc : c ≠ '\\') (quote : Char) (n : Nat) (cs : List Char) :
    stringUnits quote (n + 1) (c :: cs) = if c = quote then some ([], cs)
      else if c = '\n' || c = '\r' then none
      else (stringUnits quote n cs).map fun s => (c.toNat :: s.1, s.2) := by
  simp only [stringUnits, scan_bind_apply, Scan.next, Option.bind_some]
  split
  · rfl
  · split
    · rfl
    · show (stringUnits quote n cs).bind _ = _
      cases stringUnits quote n cs <;> rfl

/-- A string ends with its quote, and what follows does not matter. -/
theorem stringUnits_closed {quote : Char} (hquote : isMark quote) {n : Nat} {cs rest : List Char}
    {us : List Nat} (h : stringUnits quote n cs = some (us, rest)) :
    ∃ x, cs = x ++ quote :: rest ∧ ∀ m more, x.length < m →
      stringUnits quote m (x ++ quote :: more) = some (us, more) := by
  have hslash : quote ≠ '\\' := by
    rintro rfl
    revert hquote
    decide
  induction n generalizing cs us with
  | zero => cases h
  | succ n ih =>
    cases cs with
    | nil => cases h
    | cons c cs =>
      by_cases hc : c = '\\'
      · subst hc
        rw [stringUnits_backslash] at h
        obtain ⟨⟨u, mid⟩, hu, h⟩ := Option.bind_eq_some_iff.mp h
        obtain ⟨⟨vs, rest⟩, hvs, h⟩ := Option.map_eq_some_iff.mp h
        cases h
        obtain ⟨x, rfl, hx⟩ := ih hvs
        obtain ⟨w, rfl⟩ := Escape.takes_unit.trims hu
        have hw : w ≠ [] := by
          rintro rfl
          exact absurd (Escape.takes_unit hu).2 (Nat.lt_irrefl _)
        obtain ⟨d, w, rfl⟩ := List.exists_cons_of_ne_nil hw
        refine ⟨'\\' :: (d :: w ++ x), by simp, fun m more hm => ?_⟩
        obtain ⟨m, rfl⟩ : ∃ j, m = j + 1 := ⟨m - 1, by omega⟩
        have hunit := unit_mark hquote (c := d) (x := w ++ x) (y := x) (by simpa using hu) more
        have hlength : x.length < m := by
          simp only [List.length_cons, List.length_append] at hm
          omega
        rw [List.cons_append, stringUnits_backslash, List.cons_append, hunit, Option.bind_some,
          hx m more hlength]
        rfl
      · rw [stringUnits_cons hc] at h
        split at h
        · next hend =>
          cases h
          subst hend
          refine ⟨[], rfl, fun m more hm => ?_⟩
          obtain ⟨m, rfl⟩ : ∃ j, m = j + 1 := ⟨m - 1, by omega⟩
          rw [List.nil_append, stringUnits_cons hc, if_pos rfl]
        · next hend =>
          split at h
          · cases h
          · next hbreak =>
            obtain ⟨⟨vs, rest⟩, hvs, h⟩ := Option.map_eq_some_iff.mp h
            cases h
            obtain ⟨x, rfl, hx⟩ := ih hvs
            refine ⟨c :: x, rfl, fun m more hm => ?_⟩
            obtain ⟨m, rfl⟩ : ∃ j, m = j + 1 := ⟨m - 1, by omega⟩
            rw [List.cons_append, stringUnits_cons hc, if_neg hend, if_neg hbreak,
              hx m more (Nat.lt_of_succ_lt_succ hm)]
            rfl

/-- A piece of a template ends with its mark, and what follows does not matter. -/
theorem templateChunk_closed {cs rest : List Char} {x : List Char × Bool × Bool}
    (h : templateChunk cs = some (x, rest)) :
    ∃ u d v, isMark d ∧ cs = u ++ d :: (v ++ rest) ∧
      ∀ more, templateChunk (u ++ d :: (v ++ more)) = some (x, more) := by
  fun_induction templateChunk cs generalizing x rest with
  | case1 => cases h
  | case2 cs =>
    cases h
    exact ⟨[], '\x60', [], by decide, rfl, fun _ => rfl⟩
  | case3 cs =>
    cases h
    exact ⟨[], '$', ['\x7b'], by decide, rfl, fun _ => rfl⟩
  | case4 c cs ih =>
    obtain ⟨⟨⟨raw, sound, last⟩, mid⟩, hchunk, h⟩ := Option.bind_eq_some_iff.mp h
    cases h
    obtain ⟨u, d, v, hd, rfl, hmore⟩ := ih hchunk
    refine ⟨'\\' :: c :: u, d, v, hd, rfl, fun more => ?_⟩
    have hsound (more : List Char) : (Escape.unit (c :: (u ++ d :: more))).isSome =
        (Escape.unit (c :: u)).isSome := by
      have happend := Escape.unit_append noDigit_isMark (by decide) c (x := u)
        (opens_cons.mpr hd : Opens isMark (d :: more))
      rw [← List.cons_append, happend, Option.isSome_map]
    simp [templateChunk, hmore more, hsound]
  | case5 c cs hquote hhole hescape ih =>
    obtain ⟨⟨⟨raw, sound, last⟩, mid⟩, hchunk, h⟩ := Option.bind_eq_some_iff.mp h
    cases h
    obtain ⟨u, d, v, hd, rfl, hmore⟩ := ih hchunk
    refine ⟨c :: u, d, v, hd, rfl, fun more => ?_⟩
    -- The character behind this one is the same in front of any text.
    have hhead (e : Char) (ds : List Char) (he : u ++ d :: (v ++ more) = e :: ds) :
        ∃ es, u ++ d :: (v ++ rest) = e :: es := by
      cases u with
      | nil => exact ⟨_, by rw [(List.cons.inj he).1]; rfl⟩
      | cons e' u => exact ⟨_, by rw [(List.cons.inj he).1]; rfl⟩
    rw [List.cons_append, templateChunk, hmore more]
    · rfl
    · exact hquote
    · intro ds hc he
      obtain ⟨es, he⟩ := hhead '\x7b' ds he
      exact hhole es hc he
    · intro e ds hc he
      obtain ⟨es, he⟩ := hhead e ds he
      exact hescape e es hc he

/-- The body of a regular expression ends with its slash, and what follows does not matter. -/
theorem regexBody_closed {inClass : Bool} {cs rest : List Char}
    (h : regexBody inClass cs = some rest) :
    ∃ w, cs = w ++ rest ∧ ∀ more, regexBody inClass (w ++ more) = some more := by
  fun_induction regexBody inClass cs with
  | case1 => cases h
  | case2 => cases h
  | case3 inClass c cs hc ih =>
    obtain ⟨w, rfl, hmore⟩ := ih h
    refine ⟨'\\' :: c :: w, rfl, fun more => ?_⟩
    simp only [List.cons_append, regexBody, hc]
    exact hmore more
  | case4 => cases h
  | case5 inClass c cs _ hc hend =>
    cases h
    have hslash : c = '/' := of_decide_eq_true (Bool.and_eq_true _ _ ▸ hend).1
    refine ⟨[c], rfl, fun more => ?_⟩
    rw [List.singleton_append, regexBody, if_neg hc, if_pos hend]
    rintro d ds rfl -
    cases hslash
  | case6 inClass c cs hescape hc hend ih =>
    obtain ⟨w, rfl, hmore⟩ := ih h
    have hplain : c ≠ '\\' := by
      rintro rfl
      cases hcs : w ++ rest with
      | nil =>
        rw [hcs] at h
        cases h
      | cons d ds => exact hescape d ds rfl hcs
    refine ⟨c :: w, rfl, fun more => ?_⟩
    rw [List.cons_append, regexBody, if_neg hc, if_neg hend]
    · exact hmore more
    · exact fun d ds e _ => hplain e

/-- What the scanner takes tells where it ends. -/
def Closed {α : Type} (s : Scan α) : Prop :=
  ∀ ⦃w rest : List Char⦄ ⦃a : α⦄, s (w ++ rest) = some (a, rest) →
    ∀ more, s (w ++ more) = some (a, more)

theorem Closed.map {α β : Type} (f : α → β) {s : Scan α} (hs : Closed s) : Closed (f <$> s) := by
  intro w rest b h more
  rw [scan_map_apply] at h
  obtain ⟨⟨a, mid⟩, ha, h⟩ := Option.map_eq_some_iff.mp h
  cases h
  rw [scan_map_apply, hs ha more]
  rfl

theorem closed_stringBody {quote : Char} (hquote : isMark quote) : Closed (stringBody quote) := by
  intro w rest a h more
  rw [stringBody, scan_map_apply] at h
  obtain ⟨⟨us, mid⟩, hus, h⟩ := Option.map_eq_some_iff.mp h
  cases h
  obtain ⟨x, hx, hmore⟩ := stringUnits_closed hquote hus
  obtain rfl : w = x ++ [quote] := List.append_cancel_right (hx.trans (by simp))
  have hlength : x.length < (x ++ [quote] ++ more).length + 1 := by
    rw [List.length_append, List.length_append]
    omega
  have hunits := hmore _ more hlength
  rw [stringBody, scan_map_apply]
  rw [List.append_assoc, List.singleton_append] at hunits ⊢
  rw [hunits]
  rfl

theorem closed_template (opens : Bool) : Closed (template opens) := by
  intro w rest l h more
  obtain ⟨x, mid, hx, h⟩ := scan_bind_eq_some.mp h
  cases h
  obtain ⟨u, d, v, -, hw, hmore⟩ := templateChunk_closed hx
  obtain rfl : w = u ++ d :: v := List.append_cancel_right (hw.trans (by simp))
  refine scan_bind_eq_some.mpr ⟨x, more, ?_, rfl⟩
  rw [List.append_assoc]
  exact hmore more

/-! What lexemes take. -/

theorem trims_regex : Trims regex := by
  intro cs rest l h
  obtain ⟨mid, hbody, h⟩ := Option.bind_eq_some_iff.mp h
  obtain ⟨u, -, h⟩ := Option.bind_eq_some_iff.mp h
  cases h
  obtain ⟨w, rfl, -⟩ := regexBody_closed hbody
  exact (List.dropWhile_suffix _).trans (List.suffix_append w mid)

theorem trims_template (opens : Bool) : Trims (template opens) := by
  have hchunk : Trims templateChunk := by
    intro cs rest x h
    obtain ⟨u, d, v, -, rfl, -⟩ := templateChunk_closed h
    exact ⟨u ++ d :: v, by simp⟩
  exact hchunk.bind fun _ => .pure _

theorem takes_lexeme (operand hole : Bool) : Takes (lexeme operand hole) := by
  intro cs rest l h
  cases cs with
  | nil => cases h
  | cons c cs =>
    have hcons (hs : rest <:+ cs) : rest <:+ c :: cs ∧ rest.length < (c :: cs).length :=
      ⟨hs.trans (List.suffix_cons c cs), Nat.lt_succ_of_le hs.length_le⟩
    simp only [lexeme] at h
    split at h
    · exact hcons ((trims_stringBody c).map _ h)
    split at h
    · exact hcons (trims_template true h)
    split at h
    · exact hcons (trims_template false h)
    split at h
    · exact hcons (takes_identifier.trims.map _ h)
    split at h
    · exact hcons (trims_regex h)
    split at h
    · exact Numeral.takes_scan h
    split at h
    · exact takes_word h
    · exact takes_symbol h

/-! Lexemes in front of other gaps. -/

section Swap

variable {w p q q' : List Char} {l : Lexeme} (hq : Opens isGapHead q) (hq' : Opens isGapHead q')
include hq hq'

theorem regex_swap (h : regex (w ++ (p ++ q)) = some (l, p ++ q)) :
    regex (w ++ (p ++ q')) = some (l, p ++ q') := by
  obtain ⟨mid, hbody, h⟩ := Option.bind_eq_some_iff.mp h
  obtain ⟨u, hflags, h⟩ := Option.bind_eq_some_iff.mp h
  obtain ⟨rfl, hrest⟩ := Prod.mk.inj (Option.some.inj h)
  obtain ⟨v, hw, hmore⟩ := regexBody_closed hbody
  -- The flags stand between the slash and what is left.
  have hmid : mid.takeWhile isIdentifierPart ++ (p ++ q) = mid := by
    rw [← hrest, List.takeWhile_append_dropWhile]
  have hwhole : w ++ (p ++ q) = v ++ mid.takeWhile isIdentifierPart ++ (p ++ q) := by
    rw [hw, List.append_assoc, hmid]
  obtain rfl := List.append_cancel_right hwhole
  have hrun : Scan.run isIdentifierPart (mid.takeWhile isIdentifierPart ++ p ++ q') =
      some (mid.takeWhile isIdentifierPart, p ++ q') := by
    apply (Aloof.run isIdentifierPart_of_isGapHead).swap _ hq hq'
    rw [List.append_assoc, hmid, run_apply, hrest]
  obtain ⟨htake, hdrop⟩ := Prod.mk.inj (Option.some.inj ((run_apply _ _).symm.trans hrun))
  rw [List.append_assoc] at htake hdrop
  rw [regex, List.append_assoc, hmore, Option.bind_eq_bind, Option.bind_some, htake, hdrop]
  exact Option.bind_eq_some_iff.mpr ⟨u, hflags, rfl⟩

/-- A lexeme is the same whatever gap stands behind it, or behind some text that follows it. -/
theorem lexeme_swap {operand hole : Bool}
    (h : lexeme operand hole (w ++ (p ++ q)) = some (l, p ++ q)) :
    lexeme operand hole (w ++ (p ++ q')) = some (l, p ++ q') := by
  have hw : w ≠ [] := by
    rintro rfl
    exact absurd (takes_lexeme operand hole h).2 (Nat.lt_irrefl _)
  obtain ⟨c, w, rfl⟩ := List.exists_cons_of_ne_nil hw
  have hnumber (q : List Char) (hq : Opens isGapHead q) :
      startsNumber (c :: (w ++ (p ++ q))) = startsNumber (c :: (w ++ p)) := by
    rw [← List.append_assoc]
    exact startsNumber_append_of_opens hq c (w ++ p)
  have haloof {s : Scan Lexeme} (hs : Aloof isGapHead s) {x : List Char}
      (h : s (x ++ (p ++ q)) = some (l, p ++ q)) : s (x ++ (p ++ q')) = some (l, p ++ q') := by
    rw [← List.append_assoc] at h ⊢
    exact hs.swap h hq hq'
  simp only [List.cons_append, lexeme, hnumber q hq] at h
  simp only [List.cons_append, lexeme, hnumber q' hq']
  split at h <;> rename_i hc
  · have hquote : isMark c := by
      simp only [Bool.or_eq_true, decide_eq_true_eq] at hc
      rcases hc with rfl | rfl <;> decide
    rw [if_pos hc]
    exact ((closed_stringBody hquote).map _) h _
  rw [if_neg hc]
  split at h <;> rename_i hc
  · rw [if_pos hc]
    exact closed_template true h _
  rw [if_neg hc]
  split at h <;> rename_i hc
  · rw [if_pos hc]
    exact closed_template false h _
  rw [if_neg hc]
  split at h <;> rename_i hc
  · rw [if_pos hc]
    exact haloof (aloof_identifier.map _) h
  rw [if_neg hc]
  split at h <;> rename_i hc
  · rw [if_pos hc]
    exact regex_swap hq hq' h
  rw [if_neg hc]
  split at h <;> rename_i hc
  · rw [if_pos hc]
    exact haloof Numeral.aloof_scan (x := c :: w) h
  rw [if_neg hc]
  split at h <;> rename_i hc
  · rw [if_pos hc]
    exact haloof aloof_word (x := c :: w) h
  rw [if_neg hc]
  have hsymbol := swap_of_append (symbol_append hq c (w ++ p)) (symbol_append hq' c (w ++ p))
    (y := p) (by simpa using h)
  simpa using hsymbol

end Swap

/-- A lexeme is the same at the end of a text and in front of a gap. -/
theorem lexeme_append {operand hole : Bool} {cs rest q : List Char} {l : Lexeme}
    (h : lexeme operand hole cs = some (l, rest)) (hq : Opens isGapHead q) :
    lexeme operand hole (cs ++ q) = some (l, rest ++ q) := by
  obtain ⟨w, rfl⟩ := (takes_lexeme operand hole h).1
  rw [List.append_assoc]
  apply lexeme_swap opens_nil hq
  rw [List.append_nil]
  exact h

end ApiSurface.Source.Lexer
