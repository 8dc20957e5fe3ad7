import Mathlib
import ApiSurface.Proofs.JoinedTokens
import ApiSurface.Proofs.LoneLexemes
import ApiSurface.Source.Lexer

/-! How words and numbers are spelled. A word of a text opens with a letter and goes on with letters
and digits; a number opens with a digit or a point and has no character of its own but points and
signs. Numbers and pieces of templates are read again from their spelling. -/
namespace ApiSurface.Source
open Text Text.Scan

/-- A text that may stand for a word. -/
def IsName (w : String) : Prop :=
  ∃ c cs, w.toList = c :: cs ∧ isIdentifierStart c ∧ ∀ d ∈ cs, isIdentifierPart d

def isNumeralStart (c : Char) : Bool := c.isDigit || c = '.'

def isNumeralPart (c : Char) : Bool := isIdentifierPart c || ['.', '+', '-'].contains c

/-- A text that may stand for a number. -/
def IsNumeral (s : String) : Prop :=
  (∃ c cs, s.toList = c :: cs ∧ isNumeralStart c) ∧ ∀ c ∈ s.toList, isNumeralPart c

theorem IsName.part {w : String} (h : IsName w) : ∀ c ∈ w.toList, isIdentifierPart c := by
  obtain ⟨c, cs, hw, hc, hcs⟩ := h
  rw [hw]
  exact List.forall_mem_cons.2 ⟨isIdentifierPart_of_start hc, hcs⟩

theorem IsName.ofList {w : List Char} {c : Char} {cs : List Char} (h : w = c :: cs)
    (hc : isIdentifierStart c) (hcs : ∀ d ∈ cs, isIdentifierPart d) : IsName (String.ofList w) :=
  ⟨c, cs, by rw [String.toList_ofList, h], hc, hcs⟩

/-- A character that goes on with a word is none of those that do not. -/
theorem ne_of_isIdentifierPart {c d : Char} (hc : isIdentifierPart c)
    (hd : isIdentifierPart d = false) : c ≠ d := by
  rintro rfl
  rw [hc] at hd
  cases hd

/-- No word opens with a digit. -/
theorem isDigit_of_isIdentifierStart {c : Char} (h : isIdentifierStart c) : c.isDigit = false := by
  by_contra hd
  have hrange : 48 ≤ c.toNat ∧ c.toNat ≤ 57 := by
    simpa [Char.isDigit, UInt32.le_iff_toNat_le] using hd
  have hletter : c.isAlpha = false := by
    have hcode : c.val.toNat = c.toNat := rfl
    simp only [Char.isAlpha, Char.isUpper, Char.isLower, UInt32.le_iff_toNat_le, hcode,
      Bool.or_eq_false_iff, decide_eq_false_iff_not, Bool.and_eq_false_iff]
    have hupper : 57 < 'A'.val.toNat := by decide
    have hlower : 57 < 'a'.val.toNat := by decide
    omega
  have hdollar : c ≠ '$' := by rintro rfl; revert hrange; decide
  have hscore : c ≠ '_' := by rintro rfl; revert hrange; decide
  have hlow : c.toNat < 128 := by omega
  simp [isIdentifierStart, hlow, hletter, hdollar, hscore] at h

theorem isNumeralPart_of_part {c : Char} (h : isIdentifierPart c) : isNumeralPart c := by
  simp [isNumeralPart, h]

/-- A text that is a number of some sort, by itself and in front of what does not go on with it. -/
structure IsNumber (literal : String → Lexeme) (s : String) : Prop where
  numeral : IsNumeral s
  read : ∀ q, Opens endsNumeral q → Numeral.scan (s.toList ++ q) = some (literal s, q)

namespace Lexeme

/-- A lexeme as a text may spell it. -/
def Spelled : Lexeme → Prop
  | word w => IsName w
  | number s => IsNumber number s
  | bigint s => IsNumber bigint s
  | template chunk _ _ sound => IsChunk chunk.toList sound
  | _ => True

/-- A number, spelled with characters of numbers. -/
def IsNumerical : Lexeme → Prop
  | number s | bigint s => IsNumeral s
  | _ => False

end Lexeme

/-! Scanners. -/

/-- What a scanner reads has a property. -/
def Scans {α : Type} (P : α → Prop) (s : Scan α) : Prop :=
  ∀ ⦃cs rest : List Char⦄ ⦃a : α⦄, s cs = some (a, rest) → P a

namespace Scans

variable {α β : Type} {P Q : α → Prop} {R : β → Prop}

theorem pure {a : α} (h : P a) : Scans P (Pure.pure a : Scan α) := by
  rintro cs rest b e
  cases e
  exact h

theorem fail : Scans P (Scan.fail : Scan α) := nofun

theorem any {s : Scan α} : Scans (fun _ => True) s := fun _ _ _ _ => trivial

theorem bind {s : Scan α} {k : α → Scan β} (hs : Scans P s) (hk : ∀ a, P a → Scans R (k a)) :
    Scans R (s >>= k) := by
  intro cs rest b e
  obtain ⟨a, mid, ha, hb⟩ := scan_bind_eq_some.1 e
  exact hk a (hs ha) hb

theorem map {s : Scan α} {f : α → β} (hs : Scans P s) (hf : ∀ a, P a → R (f a)) :
    Scans R (f <$> s) := hs.bind fun a ha => pure (hf a ha)

theorem ite {c : Prop} [Decidable c] {s s' : Scan α} (hs : c → Scans P s)
    (hs' : ¬c → Scans P s') : Scans P (if c then s else s') := by
  split
  · exact hs ‹_›
  · exact hs' ‹_›

theorem mono {s : Scan α} (hs : Scans P s) (h : ∀ a, P a → Q a) : Scans Q s :=
  fun _ _ _ e => h _ (hs e)

theorem run (p : Char → Bool) : Scans (fun ds => ∀ c ∈ ds, p c) (Scan.run p) := by
  intro cs rest ds e
  cases e
  exact fun c hc => List.all_eq_true.1 (List.all_takeWhile (l := cs)) c hc

end Scans

/-! Words. -/

theorem identifierChar_scans {p : Char → Bool} :
    Scans (fun r => p r.1 = true) (identifierChar p) := by
  refine .bind .any fun c _ => ?_
  split
  · exact .bind .any fun _ _ => .bind .any fun _ _ => .ite (fun h => .pure h) fun _ => .fail
  · exact .ite (fun h => .pure h) fun _ => .fail

theorem identifierRest_scans (n : Nat) :
    Scans (fun r => ∀ c ∈ r.1, isIdentifierPart c) (identifierRest n) := by
  induction n with
  | zero => exact .fail
  | succ n ih =>
    refine .bind .any fun c? _ => ?_
    split
    · exact .pure (by simp)
    · refine .ite (fun _ => ?_) fun _ => .pure (by simp)
      exact .bind identifierChar_scans fun d hd => .bind ih fun ds hds =>
        .pure (List.forall_mem_cons.2 ⟨hd, hds⟩)

theorem identifier_scans : Scans (fun r => IsName r.1) identifier := by
  refine .bind identifierChar_scans fun c hc => ?_
  refine .bind (P := fun r => ∀ d ∈ r.1, isIdentifierPart d)
    (fun cs _ _ e => identifierRest_scans _ e) fun cs hcs => .pure (IsName.ofList rfl hc hcs)

theorem word_scans : Scans Lexeme.Spelled Lexer.word :=
  .bind identifier_scans fun _ h => .ite (fun _ => .fail) fun _ => .pure h

/-! Numbers. -/

namespace Numeral

theorem ne_of_wellParted {c : Char} {cs : List Char} (h : wellParted (c :: cs)) :
    c ≠ '_' := by
  rintro rfl
  rcases cs with _ | ⟨d, cs⟩ <;> simp [wellParted] at h

/-- There is one digit at least, and an underscore is not the first of them. -/
theorem digits_scans {p : Char → Bool} (hp : ∀ c, p c → isIdentifierPart c) :
    Scans (fun ds => (∃ c cs, ds = c :: cs ∧ p c) ∧ ∀ c ∈ ds, isNumeralPart c) (digits p) := by
  refine .bind (.run _) fun ds hds => .ite (fun hw => .pure ⟨?_, fun c hc => ?_⟩) fun _ => .fail
  · cases ds with
    | nil => cases hw
    | cons c cs =>
      have hc : p c ∨ c = '_' := by simpa using hds c List.mem_cons_self
      exact ⟨c, cs, rfl, hc.resolve_right (ne_of_wellParted hw)⟩
  · have hc : p c ∨ c = '_' := by simpa using hds c hc
    obtain h | rfl := hc
    · exact isNumeralPart_of_part (hp c h)
    · decide

theorem decimalDigits_scans : Scans (fun ds => (∃ c cs, ds = c :: cs ∧ c.isDigit) ∧
    ∀ c ∈ ds, isNumeralPart c) (digits Char.isDigit) :=
  digits_scans fun _ => isIdentifierPart_of_isDigit

theorem maybe_scans (p : Char → Bool) : Scans (fun ds => ∀ c ∈ ds, p c) (maybe p) := by
  intro cs rest ds e
  obtain ⟨c?, mid, hpeek, e⟩ := scan_bind_eq_some.1 e
  cases hpeek
  cases cs with
  | nil =>
    cases e
    simp
  | cons c cs =>
    by_cases hc : p c
    · rw [List.head?_cons] at e
      simp only [hc, if_true] at e
      cases e
      simpa using hc
    · rw [List.head?_cons] at e
      simp only [hc] at e
      cases e
      simp

theorem exponent_scans : Scans (fun ds => ∀ c ∈ ds, isNumeralPart c) exponent := by
  have hmark : ∀ c, isExponentMark c → isNumeralPart c := by
    simp only [isExponentMark, Bool.or_eq_true, decide_eq_true_eq]
    rintro c (rfl | rfl) <;> decide
  have hsign : ∀ c, isSign c → isNumeralPart c := by
    simp only [isSign, Bool.or_eq_true, decide_eq_true_eq]
    rintro c (rfl | rfl) <;> decide
  refine .bind (maybe_scans _) fun mark hm => ?_
  split
  · exact .pure (by simp)
  · refine .bind (maybe_scans _) fun sign hs => .bind decimalDigits_scans fun ds hds => .pure ?_
    simp only [List.mem_append]
    rintro c ((hc | hc) | hc)
    · exact hmark c (hm c hc)
    · exact hsign c (hs c hc)
    · exact hds.2 c hc

theorem fraction_scans : Scans (fun ds => ∀ c ∈ ds, isNumeralPart c) fraction := by
  refine .bind .any fun c? _ => ?_
  split
  · exact .ite (fun _ => decimalDigits_scans.mono fun _ h => h.2) fun _ => .pure (by simp)
  · exact .pure (by simp)

/-- The characters of a number, the first of them a digit or a point. -/
def IsSpelling (cs : List Char) : Prop :=
  (∃ d ds, cs = d :: ds ∧ isNumeralStart d) ∧ ∀ c ∈ cs, isNumeralPart c

theorem IsSpelling.append {cs ds : List Char} (h : IsSpelling cs)
    (hds : ∀ c ∈ ds, isNumeralPart c) : IsSpelling (cs ++ ds) := by
  obtain ⟨⟨d, ds', rfl, hd⟩, hcs⟩ := h
  exact ⟨⟨d, _, rfl, hd⟩, fun c hc => (List.mem_append.1 hc).elim (hcs c) (hds c)⟩

theorem IsSpelling.isNumeral {cs : List Char} (h : IsSpelling cs) :
    IsNumeral (String.ofList cs) := by
  simpa [IsNumeral, IsSpelling] using h

theorem integer_scans {cs : List Char} (h : IsSpelling cs) :
    Scans Lexeme.IsNumerical (integer cs) := by
  refine .bind (maybe_scans _) fun mark hm => ?_
  split
  · exact .pure h.isNumeral
  · refine .pure (h.append fun c hc => ?_).isNumeral
    obtain rfl : c = 'n' := by simpa using hm c hc
    decide

theorem decimal_scans : Scans Lexeme.IsNumerical decimal := by
  have hpoint : Scans (fun ds => ∀ c ∈ ds, c = '.') (maybe (· = '.')) :=
    (maybe_scans _).mono fun ds hds c hc => of_decide_eq_true (hds c hc)
  have hwhole : Scans IsSpelling (digits Char.isDigit) := by
    refine decimalDigits_scans.mono ?_
    rintro ds ⟨⟨c, cs, rfl, hc⟩, hds⟩
    exact ⟨⟨c, cs, rfl, by simp [isNumeralStart, hc]⟩, hds⟩
  refine .bind hpoint fun point hp => ?_
  rcases point with _ | ⟨c, cs⟩
  · refine .bind hwhole fun whole hw => ?_
    -- a zero in front is looked at and otherwise read like any other digit
    refine .ite (fun _ => .bind .any fun _ _ => ?_) fun _ => ?_
    all_goals
      refine .bind hpoint fun point hp => ?_
      split
      · refine .bind exponent_scans fun e he => ?_
        split
        · exact integer_scans hw
        · exact .pure (hw.append he).isNumeral
      · refine .bind fraction_scans fun part hpart => .bind exponent_scans fun e he => .pure ?_
        refine (((hw.append fun c hc => ?_).append hpart).append he).isNumeral
        rw [hp c hc]
        decide
  · refine .bind decimalDigits_scans fun part hpart => .bind exponent_scans fun e he => .pure ?_
    have hspelling : IsSpelling (c :: cs) := by
      refine ⟨⟨c, cs, rfl, ?_⟩, fun d hd => ?_⟩
      · rw [hp c List.mem_cons_self]
        decide
      · rw [hp d hd]
        decide
    exact ((hspelling.append hpart.2).append he).isNumeral

theorem isNumeralPart_of_based? {c : Char} {p : Char → Bool} (h : based? c = some p) :
    isNumeralPart c := by
  unfold based? at h
  split at h <;> cases h <;> decide

theorem literal_scans : Scans Lexeme.IsNumerical literal := by
  intro cs rest l e
  unfold literal at e
  split at e
  · next c cs =>
    cases hp : based? c with
    | none => exact decimal_scans (by simpa only [hp] using e)
    | some p =>
      rw [hp] at e
      refine (Scans.bind (digits_scans fun _ => isIdentifierPart_of_based? hp)
        fun ds hds => integer_scans ?_) e
      refine ⟨⟨'0', _, rfl, by decide⟩, ?_⟩
      simpa [isNumeralPart_of_based? hp] using ⟨by decide, hds.2⟩
  · exact decimal_scans e

theorem numerical_scans : Scans Lexeme.IsNumerical scan := by
  refine .bind literal_scans fun l hl => .bind .any fun c? _ => ?_
  split
  · exact .ite (fun _ => .fail) fun _ => .pure hl
  · exact .pure hl

theorem scan_scans : Scans Lexeme.Spelled scan := by
  intro cs rest l h
  have hl := numerical_scans h
  cases l with
  | number s => exact ⟨hl, fun q hq => scan_spelling h hq⟩
  | bigint s => exact ⟨hl, fun q hq => scan_spelling h hq⟩
  | _ => cases hl

end Numeral

/-! Tokens. -/

theorem symbol_scans : Scans Lexeme.Spelled Lexer.symbol := by
  intro cs rest l e
  unfold Lexer.symbol at e
  split at e
  · cases e
    trivial
  · obtain ⟨s, -, e⟩ := Option.bind_eq_some_iff.1 e
    cases e
    trivial

theorem regex_scans : Scans Lexeme.Spelled Lexer.regex := by
  intro cs rest l e
  obtain ⟨_, -, e⟩ := Option.bind_eq_some_iff.1 e
  obtain ⟨_, -, e⟩ := Option.bind_eq_some_iff.1 e
  cases e
  trivial

theorem template_scans (opens : Bool) : Scans Lexeme.Spelled (Lexer.template opens) := by
  refine .bind (P := fun x => IsChunk x.1 x.2.1) (fun _ _ _ e =>
    (Lexer.templateChunk_spelling e).2) fun x hx => .pure ?_
  rwa [Lexeme.Spelled, String.toList_ofList]

theorem lexeme_scans (operand hole : Bool) : Scans Lexeme.Spelled (Lexer.lexeme operand hole) := by
  intro cs rest l e
  cases cs with
  | nil => cases e
  | cons c cs =>
    simp only [Lexer.lexeme] at e
    split at e
    · exact Scans.map .any (fun _ _ => trivial) e
    split at e
    · exact template_scans _ e
    split at e
    · exact template_scans _ e
    split at e
    · exact Scans.map .any (fun _ _ => trivial) e
    split at e
    · exact regex_scans e
    split at e
    · exact Numeral.scan_scans e
    split at e
    · exact word_scans e
    · exact symbol_scans e

/-- The words and numbers of a text are spelled as such. -/
theorem spelled_of_tokens? {text : List Char} {ts : List Token}
    (h : Lexer.tokens? text = some ts) : ∀ t ∈ ts, t.lexeme.Spelled := by
  have hfrom : ∀ n size previous braces cs ts,
      Lexer.tokensFrom size n previous braces cs = some ts → ∀ t ∈ ts, t.lexeme.Spelled := by
    intro n
    induction n with
    | zero => nofun
    | succ n ih =>
      intro size previous braces cs ts h
      obtain ⟨broken, rest, -, -, ⟨-, rfl⟩ | ⟨-, l, rest', more, hl, hmore, rfl⟩⟩ :=
        Lexer.tokensFrom_eq_some.1 h
      · simp
      · exact List.forall_mem_cons.2 ⟨lexeme_scans _ _ hl, ih _ _ _ _ _ hmore⟩
  exact hfrom _ _ _ _ _ _ h

end ApiSurface.Source
