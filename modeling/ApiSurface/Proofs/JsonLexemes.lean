import ApiSurface.Json.Parser
import Mathlib.Data.List.TakeWhile
import Mathlib.Tactic.SplitIfs

/-! The grammar of the numbers and strings of JSON texts. A rule tells what stands at the front of
a text and the rest behind it. Main statements: a number, and a string behind its opening quote, is
read exactly if it is written so. -/
namespace ApiSurface.Json
open Reader

/-! Readers step by step. -/

section Steps

variable {α β : Type} {x : Reader α} {f : α → Reader β} {a : α} {cs rest : List Char}

theorem bind_ok (h : x cs = .ok (a, rest)) : (x >>= f) cs = f a rest := by
  show (x cs).bind _ = _
  rw [h]
  rfl

/-- What a reader that goes on after another one has read. -/
theorem bind_eq_ok {r : β × List Char} :
    (x >>= f) cs = .ok r ↔ ∃ a rest, x cs = .ok (a, rest) ∧ f a rest = .ok r := by
  show (x cs).bind _ = _ ↔ _
  cases x cs with
  | error fault => simp [Except.bind]
  | ok p =>
    obtain ⟨a, rest⟩ := p
    refine ⟨fun h => ⟨a, rest, rfl, h⟩, ?_⟩
    rintro ⟨a', rest', h, hr⟩
    cases h
    exact hr

end Steps

theorem peek?_bind {α : Type} (f : Option Char → Reader α) (cs : List Char) :
    (peek? >>= f) cs = f cs.head? cs := rfl

theorem skip_bind {α : Type} (f : Unit → Reader α) (c : Char) (cs : List Char) :
    (skip >>= f) (c :: cs) = f () cs := rfl

theorem next_bind {α : Type} (f : Char → Reader α) (c : Char) (cs : List Char) :
    (next >>= f) (c :: cs) = f c cs := rfl

theorem pure_eq_ok {α : Type} {a b : α} {cs rest : List Char} :
    (pure a : Reader α) cs = .ok (b, rest) ↔ a = b ∧ cs = rest := by
  show Except.ok (a, cs) = .ok (b, rest) ↔ _
  rw [Except.ok.injEq, Prod.mk.injEq]

theorem next_eq_ok {c : Char} {cs rest : List Char} (h : next cs = .ok (c, rest)) :
    cs = c :: rest := by
  cases cs with
  | nil => cases h
  | cons d ds => cases h; rfl

/-! Numbers. -/

/-- Digits at the front of a text, as many as there are. -/
structure Digits (ds cs rest : List Char) : Prop where
  split : cs = ds ++ rest
  ne_nil : ds ≠ []
  digit : ∀ d ∈ ds, d.isDigit
  stop : ∀ c ∈ rest.head?, ¬ c.isDigit

inductive Fraction : Option (List Char) → List Char → List Char → Prop
  | absent {cs} : cs.head? ≠ some '.' → Fraction none cs cs
  | present {ds cs rest} : Digits ds cs rest → Fraction (some ds) ('.' :: cs) rest

/-- An exponent, as it is written and as a number. -/
inductive Exponent : List Char × Int → List Char → List Char → Prop
  | absent {cs} : cs.head? ≠ some 'e' → cs.head? ≠ some 'E' → Exponent ([], 0) cs cs
  | bare {e ds cs rest} : e = 'e' ∨ e = 'E' → Digits ds cs rest →
      Exponent (e :: ds, natOfDigits ds) (e :: cs) rest
  | plus {e ds cs rest} : e = 'e' ∨ e = 'E' → Digits ds cs rest →
      Exponent (e :: '+' :: ds, natOfDigits ds) (e :: '+' :: cs) rest
  | minus {e ds cs rest} : e = 'e' ∨ e = 'E' → Digits ds cs rest →
      Exponent (e :: '-' :: ds, -natOfDigits ds) (e :: '-' :: cs) rest

/-- A number without its sign. A zero in front stands alone, and the value fits a double. -/
inductive Magnitude : List Char → List Char → List Char → Prop
  | mk {whole frac exp cs cs₁ cs₂ rest} : Digits whole cs cs₁ →
      ¬ (whole.head? = some '0' ∧ 1 < whole.length) → Fraction frac cs₁ cs₂ →
      Exponent exp cs₂ rest → isTooLarge whole (frac.getD []) exp.2 = false →
      Magnitude (whole ++ (frac.map ('.' :: ·)).getD [] ++ exp.1) cs rest

inductive Numeral : List Char → List Char → List Char → Prop
  | positive {m cs rest} : Magnitude m cs rest → Numeral m cs rest
  | negative {m cs rest} : Magnitude m cs rest → Numeral ('-' :: m) ('-' :: cs) rest

theorem Digits.head {ds cs rest : List Char} (h : Digits ds cs rest) :
    ∃ d ds', cs = d :: ds' ∧ d.isDigit := by
  obtain ⟨rfl, hne, hdigit, -⟩ := h
  obtain ⟨d, ds, rfl⟩ := List.exists_cons_of_ne_nil hne
  exact ⟨d, ds ++ rest, rfl, hdigit d List.mem_cons_self⟩

theorem someDigits_cons (c : Char) (cs : List Char) : someDigits (c :: cs) =
    if c.isDigit then
      .ok ((c :: cs).takeWhile Char.isDigit, (c :: cs).dropWhile Char.isDigit)
    else .error .malformed := by
  show (if c.isDigit then digits else fail .malformed : Reader _) (c :: cs) = _
  split_ifs <;> rfl

theorem someDigits_eq_ok_iff {cs ds rest : List Char} :
    someDigits cs = .ok (ds, rest) ↔ Digits ds cs rest := by
  constructor
  · intro h
    cases cs with
    | nil => cases h
    | cons c cs =>
      rw [someDigits_cons] at h
      split_ifs at h with hc
      cases h
      refine ⟨List.takeWhile_append_dropWhile.symm, ?_, fun d hd => List.mem_takeWhile_imp hd, ?_⟩
      · rw [List.takeWhile_cons_of_pos hc]
        exact List.cons_ne_nil _ _
      · intro d hd hdigit
        have hnot := List.head?_dropWhile_not Char.isDigit (c :: cs)
        rw [Option.mem_def.mp hd] at hnot
        simp [hdigit] at hnot
  · intro h
    obtain ⟨c, cs', rfl, hc⟩ := h.head
    obtain ⟨hsplit, -, hdigit, hstop⟩ := h
    have hrest : rest.takeWhile Char.isDigit = [] ∧ rest.dropWhile Char.isDigit = rest := by
      cases rest with
      | nil => exact ⟨rfl, rfl⟩
      | cons r rest =>
        have hr := hstop r rfl
        exact ⟨List.takeWhile_cons_of_neg hr, List.dropWhile_cons_of_neg hr⟩
    rw [someDigits_cons, if_pos hc, hsplit, List.takeWhile_append_of_pos hdigit,
      List.dropWhile_append_of_pos hdigit, hrest.1, hrest.2, List.append_nil]

theorem fraction_eq_ok_iff {cs rest : List Char} {f : Option (List Char)} :
    fraction cs = .ok (f, rest) ↔ Fraction f cs rest := by
  constructor
  · intro h
    rw [fraction, peek?_bind] at h
    generalize hhead : cs.head? = c? at h
    split at h
    · obtain ⟨cs', rfl⟩ := List.head?_eq_some_iff.mp hhead
      rw [skip_bind, bind_eq_ok] at h
      obtain ⟨ds, cs₂, hds, h⟩ := h
      cases h
      exact .present (someDigits_eq_ok_iff.mp hds)
    · next hdot =>
      cases h
      exact .absent fun hd => hdot (hhead.symm.trans hd)
  · intro h
    rw [fraction, peek?_bind]
    cases h with
    | absent hdot =>
      generalize cs.head? = c? at hdot
      split
      · exact absurd rfl hdot
      · rfl
    | present hds =>
      show (skip >>= fun _ => someDigits >>= _) _ = _
      rw [skip_bind, bind_ok (someDigits_eq_ok_iff.mpr hds)]
      rfl

theorem exponent_of_eq_ok {cs rest : List Char} {exp : List Char × Int}
    (h : exponent cs = .ok (exp, rest)) : Exponent exp cs rest := by
  rw [exponent, peek?_bind] at h
  generalize hhead : cs.head? = c? at h
  split at h
  · next e =>
    obtain ⟨cs', rfl⟩ := List.head?_eq_some_iff.mp hhead
    split_ifs at h with he
    · have he : e = 'e' ∨ e = 'E' := by simpa using he
      rw [skip_bind, peek?_bind] at h
      generalize hsign : cs'.head? = c? at h
      split at h
      · obtain ⟨cs'', rfl⟩ := List.head?_eq_some_iff.mp hsign
        rw [skip_bind, bind_eq_ok] at h
        obtain ⟨ds, cs₂, hds, h⟩ := h
        cases h
        exact .plus he (someDigits_eq_ok_iff.mp hds)
      · obtain ⟨cs'', rfl⟩ := List.head?_eq_some_iff.mp hsign
        rw [skip_bind, bind_eq_ok] at h
        obtain ⟨ds, cs₂, hds, h⟩ := h
        cases h
        exact .minus he (someDigits_eq_ok_iff.mp hds)
      · rw [bind_eq_ok] at h
        obtain ⟨ds, cs₂, hds, h⟩ := h
        cases h
        exact .bare he (someDigits_eq_ok_iff.mp hds)
    · cases h
      obtain ⟨hlow, hhigh⟩ : ¬ e = 'e' ∧ ¬ e = 'E' := by simpa using he
      exact .absent (by simpa using hlow) (by simpa using hhigh)
  · cases h
    rw [List.head?_eq_none_iff.mp hhead]
    exact .absent nofun nofun

theorem exponent_eq_ok {cs rest : List Char} {exp : List Char × Int}
    (h : Exponent exp cs rest) : exponent cs = .ok (exp, rest) := by
  have hletter {e : Char} (he : e = 'e' ∨ e = 'E') : (e = 'e' || e = 'E') = true := by
    simpa using he
  rw [exponent, peek?_bind]
  cases h with
  | absent hlow hhigh =>
    generalize cs.head? = c? at hlow hhigh
    split
    · next e =>
      have he : (e = 'e' || e = 'E') = false := by simp_all
      simp only [he]
      rfl
    · rfl
  | @bare e ds cs rest he hds =>
    have hsign {c : Char} (hc : c.isDigit = false) : cs.head? ≠ some c := by
      obtain ⟨d, ds', rfl, hd⟩ := hds.head
      rintro ⟨⟩
      rw [hc] at hd
      cases hd
    have hplus := hsign (c := '+') rfl
    have hminus := hsign (c := '-') rfl
    simp only [List.head?_cons, hletter he, if_true]
    rw [skip_bind, peek?_bind]
    generalize cs.head? = c? at hplus hminus
    split
    · exact absurd rfl hplus
    · exact absurd rfl hminus
    · rw [bind_ok (someDigits_eq_ok_iff.mpr hds)]
      rfl
  | plus he hds | minus he hds =>
    simp only [List.head?_cons, hletter he, if_true]
    rw [skip_bind, peek?_bind]
    show (skip >>= fun _ => someDigits >>= _) _ = _
    rw [skip_bind, bind_ok (someDigits_eq_ok_iff.mpr hds)]
    rfl

theorem magnitude_eq_ok_iff {cs m rest : List Char} :
    magnitude cs = .ok (m, rest) ↔ Magnitude m cs rest := by
  constructor
  · intro h
    rw [magnitude, bind_eq_ok] at h
    obtain ⟨whole, cs₁, hwhole, h⟩ := h
    split_ifs at h with hzero
    · cases h
    rw [bind_eq_ok] at h
    obtain ⟨frac, cs₂, hfrac, h⟩ := h
    rw [bind_eq_ok] at h
    obtain ⟨⟨written, power⟩, cs₃, hexp, h⟩ := h
    simp only at h
    split_ifs at h with hlarge
    · cases h
    cases h
    exact .mk (someDigits_eq_ok_iff.mp hwhole) (by simpa using hzero) (fraction_eq_ok_iff.mp hfrac)
      (exponent_of_eq_ok hexp) (Bool.eq_false_iff.mpr hlarge)
  · rintro ⟨hwhole, hzero, hfrac, hexp, hlarge⟩
    rw [magnitude, bind_ok (someDigits_eq_ok_iff.mpr hwhole)]
    simp only
    rw [if_neg (by simpa using hzero), bind_ok (fraction_eq_ok_iff.mpr hfrac),
      bind_ok (exponent_eq_ok hexp)]
    simp only [hlarge]
    rfl

theorem Magnitude.head {m cs rest : List Char} (h : Magnitude m cs rest) :
    ∃ d ds, cs = d :: ds ∧ d.isDigit := by
  obtain ⟨hwhole, -⟩ := h
  exact hwhole.head

theorem number_eq_ok_iff {cs rest : List Char} {v : Json} :
    Reader.number cs = .ok (v, rest) ↔ ∃ m, v = .number (String.ofList m) ∧ Numeral m cs rest := by
  constructor
  · intro h
    rw [Reader.number, peek?_bind] at h
    generalize hhead : cs.head? = c? at h
    split at h
    · obtain ⟨cs', rfl⟩ := List.head?_eq_some_iff.mp hhead
      rw [skip_bind, bind_eq_ok] at h
      obtain ⟨m, cs₁, hm, h⟩ := h
      cases h
      exact ⟨_, rfl, .negative (magnitude_eq_ok_iff.mp hm)⟩
    · rw [bind_eq_ok] at h
      obtain ⟨m, cs₁, hm, h⟩ := h
      cases h
      exact ⟨_, rfl, .positive (magnitude_eq_ok_iff.mp hm)⟩
  · rintro ⟨m, rfl, hm⟩
    rw [Reader.number, peek?_bind]
    cases hm with
    | positive hm =>
      obtain ⟨d, ds, rfl, hd⟩ := hm.head
      have hsign : some d ≠ some '-' := by
        rintro ⟨⟩
        cases hd
      rw [List.head?_cons]
      generalize some d = c? at hsign
      split
      · exact absurd rfl hsign
      · rw [bind_ok (magnitude_eq_ok_iff.mpr hm)]
        rfl
    | negative hm =>
      show (skip >>= fun _ => magnitude >>= _) _ = _
      rw [skip_bind, bind_ok (magnitude_eq_ok_iff.mpr hm)]
      rfl

/-! Strings. -/

/-- Four hexadecimal digits and their number. -/
inductive Unit16 : Nat → List Char → List Char → Prop
  | mk {a b c d i j k l rest} : hexValue? a = some i → hexValue? b = some j →
      hexValue? c = some k → hexValue? d = some l →
      Unit16 (((i * 16 + j) * 16 + k) * 16 + l) (a :: b :: c :: d :: rest) rest

/-- The letters of short escapes and the characters that they stand for. -/
def shortEscapes : List (Char × Char) :=
  [('"', '"'), ('\\', '\\'), ('/', '/'), ('b', Char.ofNat 8), ('f', Char.ofNat 12), ('n', '\n'),
    ('r', '\r'), ('t', '\t')]

/-- A character that is written by its number, or by the two surrogates that stand for it. -/
inductive Unicode : Char → List Char → List Char → Prop
  | unit {n cs rest} : Unit16 n cs rest → ¬ (0xD800 ≤ n ∧ n ≤ 0xDFFF) →
      Unicode (Char.ofNat n) cs rest
  | pair {high low cs cs₁ rest} : Unit16 high cs ('\\' :: 'u' :: cs₁) → Unit16 low cs₁ rest →
      0xD800 ≤ high ∧ high ≤ 0xDBFF → 0xDC00 ≤ low ∧ low ≤ 0xDFFF →
      Unicode (ofSurrogates high low) cs rest

/-- A character as it is written behind a backslash. -/
inductive Escaped : Char → List Char → List Char → Prop
  | short {letter c rest} : (letter, c) ∈ shortEscapes → Escaped c (letter :: rest) rest
  | unicode {c cs rest} : Unicode c cs rest → Escaped c ('u' :: cs) rest

/-- The characters of a string up to its closing quote. -/
inductive Quoted : List Char → List Char → List Char → Prop
  | close {rest} : Quoted [] ('"' :: rest) rest
  | plain {c s cs rest} : c ≠ '"' → c ≠ '\\' → 32 ≤ c.toNat → Quoted s cs rest →
      Quoted (c :: s) (c :: cs) rest
  | escaped {c s cs cs₁ rest} : Escaped c cs cs₁ → Quoted s cs₁ rest →
      Quoted (c :: s) ('\\' :: cs) rest

theorem four_le_byteCount (a b c d : Char) : 4 ≤ byteCount [a, b, c, d] := by
  have ha := a.utf8Size_pos
  have hb := b.utf8Size_pos
  have hc := c.utf8Size_pos
  have hd := d.utf8Size_pos
  simp [byteCount]
  omega

theorem unit16_eq_ok_iff {cs rest : List Char} {n : Nat} :
    unit16 cs = .ok (n, rest) ↔ Unit16 n cs rest := by
  constructor
  · intro h
    unfold unit16 at h
    split_ifs at h
    split at h
    · split at h
      · next ha hb hc hd =>
        cases h
        exact .mk ha hb hc hd
      · cases h
    · cases h
  · rintro ⟨ha, hb, hc, hd⟩
    have hbytes := four_le_byteCount
    unfold unit16
    rw [if_neg (by simpa using hbytes _ _ _ _)]
    simp only [ha, hb, hc, hd]

theorem unicode_of_eq_ok {cs rest : List Char} {c : Char}
    (h : unicodeEscape cs = .ok (c, rest)) : Unicode c cs rest := by
  rw [unicodeEscape, bind_eq_ok] at h
  obtain ⟨high, cs₁, hhigh, h⟩ := h
  split_ifs at h with hlow hsurrogate
  · cases h
  · rw [bind_eq_ok] at h
    obtain ⟨slash, cs₂, hslash, h⟩ := h
    obtain rfl := next_eq_ok hslash
    split_ifs at h with hne
    · cases h
    · rw [bind_eq_ok] at h
      obtain ⟨letter, cs₃, hletter, h⟩ := h
      obtain rfl := next_eq_ok hletter
      split_ifs at h with hne'
      · cases h
      · rw [bind_eq_ok] at h
        obtain ⟨low, cs₄, hlow', h⟩ := h
        split_ifs at h with hrange
        · obtain ⟨rfl, rfl⟩ := pure_eq_ok.mp h
          obtain rfl := not_not.mp hne
          obtain rfl := not_not.mp hne'
          exact .pair (unit16_eq_ok_iff.mp hhigh) (unit16_eq_ok_iff.mp hlow')
            (by simpa using hsurrogate) (by simpa using hrange)
        · cases h
  · cases h
    exact .unit (unit16_eq_ok_iff.mp hhigh) (by simp at hlow hsurrogate; omega)

theorem unicodeEscape_eq_ok {cs rest : List Char} {c : Char} (h : Unicode c cs rest) :
    unicodeEscape cs = .ok (c, rest) := by
  cases h with
  | unit hn hrange =>
    rw [unicodeEscape, bind_ok (unit16_eq_ok_iff.mpr hn), if_neg (by simp; omega),
      if_neg (by simp; omega)]
    rfl
  | pair hhigh hlow hrange hrange' =>
    rw [unicodeEscape, bind_ok (unit16_eq_ok_iff.mpr hhigh), if_neg (by simp; omega),
      if_pos (by simp; omega)]
    rw [next_bind]
    simp only [ne_eq, not_true_eq_false, if_false]
    rw [next_bind]
    simp only [not_true_eq_false, if_false]
    rw [bind_ok (unit16_eq_ok_iff.mpr hlow), if_pos (by simp; omega)]
    rfl

theorem escape_eq_ok_iff {cs rest : List Char} {c : Char} :
    escape cs = .ok (c, rest) ↔ Escaped c cs rest := by
  constructor
  · intro h
    rw [escape, bind_eq_ok] at h
    obtain ⟨letter, cs₁, hnext, h⟩ := h
    obtain rfl := next_eq_ok hnext
    split at h
    case h_9 => exact .unicode (unicode_of_eq_ok h)
    case h_10 => cases h
    all_goals
      cases h
      exact .short (by decide)
  · rintro (hshort | hunicode)
    · simp only [shortEscapes, List.mem_cons, Prod.mk.injEq, List.not_mem_nil, or_false] at hshort
      rcases hshort with ⟨rfl, rfl⟩ | ⟨rfl, rfl⟩ | ⟨rfl, rfl⟩ | ⟨rfl, rfl⟩ | ⟨rfl, rfl⟩ |
        ⟨rfl, rfl⟩ | ⟨rfl, rfl⟩ | ⟨rfl, rfl⟩ <;> rfl
    · exact unicodeEscape_eq_ok hunicode

theorem quoted_of_eq_ok {fuel : Nat} :
    ∀ {s cs rest : List Char}, stringChars fuel cs = .ok (s, rest) → Quoted s cs rest := by
  induction fuel with
  | zero => exact nofun
  | succ fuel ih =>
    intro s cs rest h
    rw [stringChars, bind_eq_ok] at h
    obtain ⟨c, cs₁, hnext, h⟩ := h
    obtain rfl := next_eq_ok hnext
    split_ifs at h with hquote hslash hcontrol
    · cases h
      exact hquote ▸ .close
    · rw [bind_eq_ok] at h
      obtain ⟨d, cs₂, hescape, h⟩ := h
      rw [bind_eq_ok] at h
      obtain ⟨s', cs₃, hs, h⟩ := h
      cases h
      exact hslash ▸ .escaped (escape_eq_ok_iff.mp hescape) (ih hs)
    · cases h
    · rw [bind_eq_ok] at h
      obtain ⟨s', cs₃, hs, h⟩ := h
      cases h
      exact .plain hquote hslash (Nat.le_of_not_lt hcontrol) (ih hs)

theorem stringChars_eq_ok {s cs rest : List Char} (h : Quoted s cs rest) :
    ∀ {fuel : Nat}, s.length < fuel → stringChars fuel cs = .ok (s, rest) := by
  induction h with
  | close =>
    rintro (_ | fuel) hfuel
    · cases hfuel
    · rfl
  | plain hquote hslash hcontrol _ ih =>
    rintro (_ | fuel) hfuel
    · cases hfuel
    · rw [stringChars, next_bind, if_neg hquote, if_neg hslash, if_neg (Nat.not_lt.mpr hcontrol),
        bind_ok (ih (Nat.lt_of_succ_lt_succ hfuel))]
      rfl
  | escaped hescape _ ih =>
    rintro (_ | fuel) hfuel
    · cases hfuel
    · rw [stringChars, next_bind, if_neg (by decide), if_pos rfl,
        bind_ok (escape_eq_ok_iff.mpr hescape), bind_ok (ih (Nat.lt_of_succ_lt_succ hfuel))]
      rfl

theorem Unit16.length_lt {n : Nat} {cs rest : List Char} (h : Unit16 n cs rest) :
    rest.length < cs.length := by
  cases h
  simp only [List.length_cons]
  omega

theorem Escaped.length_lt {c : Char} {cs rest : List Char} (h : Escaped c cs rest) :
    rest.length < cs.length := by
  obtain _ | ⟨hunit, -⟩ | ⟨hhigh, hlow, -, -⟩ := h
  · exact Nat.lt_succ_self _
  · have := hunit.length_lt
    exact Nat.lt_succ_of_lt this
  · have hhigh := hhigh.length_lt
    have hlow := hlow.length_lt
    simp only [List.length_cons] at hhigh ⊢
    omega

/-- No character of a string takes less than one character of the text. -/
theorem Quoted.length_lt {s cs rest : List Char} (h : Quoted s cs rest) :
    s.length + rest.length < cs.length := by
  induction h with
  | close => simp
  | plain _ _ _ _ ih =>
    simp only [List.length_cons]
    omega
  | escaped hescape _ ih =>
    have := hescape.length_lt
    simp only [List.length_cons]
    omega

theorem stringBody_eq_ok_iff {s : String} {cs rest : List Char} :
    stringBody cs = .ok (s, rest) ↔ ∃ k, s = String.ofList k ∧ Quoted k cs rest := by
  constructor
  · intro h
    rw [stringBody] at h
    cases hs : stringChars (cs.length + 1) cs with
    | error fault =>
      rw [hs] at h
      cases h
    | ok r =>
      rw [hs] at h
      cases h
      exact ⟨_, rfl, quoted_of_eq_ok hs⟩
  · rintro ⟨k, rfl, hk⟩
    have hlength := hk.length_lt
    rw [stringBody, stringChars_eq_ok hk (by omega)]
    rfl

end ApiSurface.Json
