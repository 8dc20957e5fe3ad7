import Mathlib
import ApiSurface.Proofs.ClosedLexemes

/-! Numbers and pieces of templates by themselves. Wherever one is read, the scanner reads the same
from its spelling alone, in front of any text that does not go on with it. -/
namespace ApiSurface.Source
open Text Text.Scan

/-- The mark that ends a piece of a template. -/
def chunkEnd (closes : Bool) : List Char := if closes then ['\x60'] else ['$', '\x7b']

/-- How a lexeme is spelled; a string stands in double quotes. -/
def Lexeme.spelling : Lexeme → List Char
  | .word w => w.toList
  | .privateName n => '#' :: n.toList
  | .string v => '"' :: v.toList ++ ['"']
  | .number s => s.toList
  | .bigint s => s.toList
  | .regex => []
  | .template chunk opens closes _ =>
    (if opens then '\x60' else '\x7d') :: chunk.toList ++ chunkEnd closes
  | .symbol s => s.toList

section Spelling

variable (s : String)

@[simp] theorem spelling_word : (Lexeme.word s).spelling = s.toList := rfl
@[simp] theorem spelling_string : (Lexeme.string s).spelling = '"' :: s.toList ++ ['"'] := rfl
@[simp] theorem spelling_number : (Lexeme.number s).spelling = s.toList := rfl
@[simp] theorem spelling_bigint : (Lexeme.bigint s).spelling = s.toList := rfl
@[simp] theorem spelling_symbol : (Lexeme.symbol s).spelling = s.toList := rfl
@[simp] theorem spelling_template (opens closes sound : Bool) :
    (Lexeme.template s opens closes sound).spelling =
      (if opens then '\x60' else '\x7d') :: s.toList ++ chunkEnd closes := rfl

@[simp] theorem chunkEnd_true : chunkEnd true = ['\x60'] := rfl
@[simp] theorem chunkEnd_false : chunkEnd false = ['$', '\x7b'] := rfl

end Spelling

/-! Scanners that tell what they take. -/

/-- What the scanner takes is told by its outcome, behind some text in front. It takes the same
where the text behind is cut short, with another text there that opens with certain characters. -/
def Copies {α : Type} (p : Char → Bool) (told : α → List Char) (front : List Char) (s : Scan α) :
    Prop :=
  ∀ ⦃cs rest : List Char⦄ ⦃a : α⦄, s cs = some (a, rest) → ∃ w, cs = w ++ rest ∧
    told a = front ++ w ∧ ∀ u v, u <+: rest → Opens p v → s (w ++ (u ++ v)) = some (a, u ++ v)

section

variable {α : Type} {p r : Char → Bool} {told : α → List Char} {front : List Char}

theorem Opens.mono {q : List Char} (h : Opens p q) (hr : ∀ c, p c → r c) : Opens r q :=
  fun c hc => hr c (h c hc)

/-- A text that is cut short opens like the text, or like what stands behind the cut. -/
theorem Opens.cut {rest u v : List Char} (h : Opens r rest) (hu : u <+: rest) (hv : Opens r v) :
    Opens r (u ++ v) := by
  cases u with
  | nil => exact hv
  | cons c u =>
    obtain ⟨more, rfl⟩ := hu
    exact opens_cons.2 (opens_cons.1 h)

namespace Copies

theorem pure {a : α} (h : told a = front) : Copies p told front (Pure.pure a : Scan α) := by
  intro cs rest b e
  cases e
  exact ⟨[], rfl, by rw [h, List.append_nil], fun _ _ _ _ => rfl⟩

theorem fail : Copies p told front (Scan.fail : Scan α) := nofun

/-- A scanner behind one whose outcome is what it takes. -/
theorem bind {s : Scan (List Char)} {k : List Char → Scan α} (hs : Copies p id [] s)
    (hk : ∀ ds, Copies p told (front ++ ds) (k ds)) : Copies p told front (s >>= k) := by
  intro cs rest b e
  obtain ⟨ds, mid, hds, hb⟩ := scan_bind_eq_some.1 e
  obtain ⟨w, rfl, hw, hsw⟩ := hs hds
  obtain rfl : ds = w := hw
  obtain ⟨w', rfl, htold, hkw⟩ := hk _ hb
  refine ⟨ds ++ w', by simp, by simpa using htold, fun u v hu hv => ?_⟩
  refine scan_bind_eq_some.2 ⟨_, w' ++ (u ++ v), ?_, hkw u v hu hv⟩
  simpa using hsw (w' ++ u) v ((List.prefix_append_right_inj w').2 hu) hv

theorem ite {c : Prop} [Decidable c] {s s' : Scan α} (hs : Copies p told front s)
    (hs' : Copies p told front s') : Copies p told front (if c then s else s') := by
  split
  · exact hs
  · exact hs'

theorem run (hr : ∀ c, p c → r c = false) : Copies p id [] (Scan.run r) := by
  intro cs rest ds e
  cases e
  refine ⟨cs.takeWhile r, List.takeWhile_append_dropWhile.symm, rfl, fun u v hu hv => ?_⟩
  have hrest : Opens (!r ·) (cs.dropWhile r) := fun c hc => by
    simpa using List.head?_dropWhile_not r cs |> fun h => by rwa [hc] at h
  have hstop := hrest.cut hu (hv.mono fun c hc => by simp [hr c hc])
  have htake : (u ++ v).takeWhile r = [] ∧ (u ++ v).dropWhile r = u ++ v := by
    cases huv : u ++ v with
    | nil => exact ⟨rfl, rfl⟩
    | cons c q =>
      rw [huv, opens_cons, Bool.not_eq_true'] at hstop
      simp [hstop]
  have hall : ∀ c ∈ cs.takeWhile r, r c := fun c hc => List.all_eq_true.1 List.all_takeWhile c hc
  rw [run_apply, List.takeWhile_append_of_pos hall, List.dropWhile_append_of_pos hall, htake.1,
    htake.2, List.append_nil]

end Copies

end

/-! Numbers. -/

theorem isIdentifierPart_of_isDigit {c : Char} (h : c.isDigit) : isIdentifierPart c := by
  have hlow : c.toNat < 128 := by
    simp only [Char.isDigit, Bool.and_eq_true, decide_eq_true_eq, UInt32.le_iff_toNat_le] at h
    exact Nat.lt_of_le_of_lt h.2 (by decide)
  simpa [isIdentifierPart, hlow] using .inr h

theorem isIdentifierPart_of_isAlpha {c : Char} (h : c.isAlpha) : isIdentifierPart c := by
  have hlow : c.toNat < 128 := by
    simp only [Char.isAlpha, Char.isUpper, Char.isLower, Bool.or_eq_true, Bool.and_eq_true,
      decide_eq_true_eq, UInt32.le_iff_toNat_le] at h
    obtain ⟨-, h⟩ | ⟨-, h⟩ := h <;> exact Nat.lt_of_le_of_lt h (by decide)
  simp [isIdentifierPart, isIdentifierStart, hlow, h]

/-- No number goes on with this character. -/
def endsNumeral (c : Char) : Bool := !(isIdentifierPart c || ['\\', '.', '+', '-'].contains c)

theorem ne_of_endsNumeral {c d : Char} (hc : endsNumeral c) (hd : endsNumeral d = false) :
    c ≠ d := by
  rintro rfl
  rw [hc] at hd
  cases hd

namespace Numeral

variable {p r : Char → Bool}

theorem maybe_cons (c : Char) (cs : List Char) :
    maybe r (c :: cs) = if r c then some ([c], cs) else some ([], c :: cs) := by
  by_cases hc : r c <;> simp [maybe, scan_bind_apply, peek?, hc] <;> rfl

theorem maybe_of_opens {q : List Char} (h : Opens (!r ·) q) : maybe r q = some ([], q) := by
  cases q with
  | nil => rfl
  | cons c q =>
    have hc : r c = false := by simpa using opens_cons.1 h
    rw [maybe_cons, hc, if_neg nofun]

theorem maybe_copies (hr : ∀ c, p c → r c = false) : Copies p id [] (maybe r) := by
  intro cs rest ds e
  have hcut : ∀ u v, Opens (!r ·) rest → u <+: rest → Opens p v →
      maybe r (u ++ v) = some ([], u ++ v) := fun u v hrest hu hv =>
    maybe_of_opens (hrest.cut hu (hv.mono fun c hc => by simp [hr c hc]))
  cases cs with
  | nil =>
    cases e
    exact ⟨[], rfl, rfl, fun u v => hcut u v opens_nil⟩
  | cons c cs =>
    rw [maybe_cons] at e
    split at e
    · next hc =>
      cases e
      exact ⟨[c], rfl, rfl, fun u v _ _ => by rw [List.singleton_append, maybe_cons, if_pos hc]⟩
    · next hc =>
      cases e
      exact ⟨[], rfl, rfl, fun u v => hcut u v (opens_cons.2 (by simpa using hc))⟩

/-- The digits of every base go on with a word. -/
theorem isIdentifierPart_of_based? {c d : Char} {r : Char → Bool} (h : based? c = some r)
    (hd : r d) : isIdentifierPart d := by
  have hhex : ∀ d : Char, (d.isDigit || ('a' ≤ d && d ≤ 'f') || ('A' ≤ d && d ≤ 'F')) →
      isIdentifierPart d := by
    intro d hd
    simp only [Bool.or_eq_true, Bool.and_eq_true, decide_eq_true_eq] at hd
    obtain (hd | ⟨hlow, hhigh⟩) | ⟨hlow, hhigh⟩ := hd
    · exact isIdentifierPart_of_isDigit hd
    · have hd : d.isLower := by
        have hle : d ≤ 'z' := Char.le_trans hhigh (show 'f' ≤ 'z' by decide)
        simpa [Char.isLower, Char.le_def] using And.intro hlow hle
      exact isIdentifierPart_of_isAlpha (by simp [Char.isAlpha, hd])
    · have hd : d.isUpper := by
        have hle : d ≤ 'Z' := Char.le_trans hhigh (show 'F' ≤ 'Z' by decide)
        simpa [Char.isUpper, Char.le_def] using And.intro hlow hle
      exact isIdentifierPart_of_isAlpha (by simp [Char.isAlpha, hd])
  have hoctal : ∀ d : Char, ('0' ≤ d && d ≤ '7') → isIdentifierPart d := by
    intro d hd
    simp only [Bool.and_eq_true, decide_eq_true_eq] at hd
    have hle : d ≤ '9' := Char.le_trans hd.2 (show '7' ≤ '9' by decide)
    exact isIdentifierPart_of_isDigit
      (by simpa [Char.isDigit, Char.le_def] using And.intro hd.1 hle)
  have hbinary : ∀ d : Char, (d = '0' || d = '1') → isIdentifierPart d := by
    simp only [Bool.or_eq_true, decide_eq_true_eq]
    rintro d (rfl | rfl) <;> decide
  unfold based? at h
  split at h <;> cases h
  · exact hhex d hd
  · exact hhex d hd
  · exact hoctal d hd
  · exact hoctal d hd
  · exact hbinary d hd
  · exact hbinary d hd

theorem digits_copies (hr : ∀ c, endsNumeral c → r c = false) :
    Copies endsNumeral id [] (digits r) := by
  refine (Copies.run fun c hc => ?_).bind fun ds => .ite (.pure rfl) .fail
  simp [hr c hc, ne_of_endsNumeral hc (d := '_') (by decide)]

theorem isDigit_of_endsNumeral {c : Char} (h : endsNumeral c) : c.isDigit = false := by
  by_contra hd
  have hpart := isIdentifierPart_of_isDigit (Bool.eq_true_of_not_eq_false hd)
  simp [endsNumeral, hpart] at h

theorem exponent_copies : Copies endsNumeral id [] exponent := by
  refine (maybe_copies fun c hc => ?_).bind fun mark => ?_
  · simp [isExponentMark, ne_of_endsNumeral hc (d := 'e') (by decide),
      ne_of_endsNumeral hc (d := 'E') (by decide)]
  · split
    · exact .pure rfl
    · refine (maybe_copies fun c hc => ?_).bind fun sign =>
        (digits_copies fun c => isDigit_of_endsNumeral).bind fun ds => .pure (by simp)
      simp [isSign, ne_of_endsNumeral hc (d := '+') (by decide),
        ne_of_endsNumeral hc (d := '-') (by decide)]

theorem fraction_copies : Copies endsNumeral id [] fraction := by
  have hstop : ∀ c, endsNumeral c → (c.isDigit || c = '_') = false := fun c hc => by
    simp [isDigit_of_endsNumeral hc, ne_of_endsNumeral hc (d := '_') (by decide)]
  have hnone : ∀ {q : List Char}, Opens (fun c => !(c.isDigit || c = '_')) q →
      fraction q = some ([], q) := by
    intro q hq
    cases q with
    | nil => rfl
    | cons c q =>
      have hc : (c.isDigit || c = '_') = false := by simpa using opens_cons.1 hq
      simp only [fraction, scan_bind_apply, peek?, List.head?_cons, Option.bind_some, hc]
      rfl
  intro cs rest ds e
  by_cases hcs : Opens (fun c => !(c.isDigit || c = '_')) cs
  · rw [hnone hcs] at e
    cases e
    refine ⟨[], rfl, rfl, fun u v hu hv =>
      hnone (q := u ++ v) (hcs.cut hu (hv.mono fun c hc => ?_))⟩
    rw [hstop c hc, Bool.not_false]
  · obtain ⟨c, cs, rfl⟩ : ∃ c cs', cs = c :: cs' :=
      List.exists_cons_of_ne_nil fun h => hcs (h ▸ opens_nil)
    have hc : (c.isDigit || c = '_') = true := by
      rwa [opens_cons, Bool.not_eq_true', Bool.not_eq_false] at hcs
    have hdigits : ∀ ds, fraction (c :: ds) = digits Char.isDigit (c :: ds) := fun ds => by
      simp only [fraction, scan_bind_apply, peek?, List.head?_cons, Option.bind_some, hc]
      rfl
    rw [hdigits] at e
    have htakes := (takes_digits _ e).2
    obtain ⟨w, hw, htold, hmore⟩ := digits_copies (fun c => isDigit_of_endsNumeral) e
    obtain ⟨w, rfl⟩ : ∃ w', w = c :: w' := by
      cases w with
      | nil => rw [hw] at htakes; simp at htakes
      | cons d w => exact ⟨w, by rw [(List.cons.inj hw).1]⟩
    exact ⟨c :: w, hw, htold, fun u v hu hv => (hdigits _).trans (hmore u v hu hv)⟩

theorem integer_copies (spelling : List Char) :
    Copies endsNumeral Lexeme.spelling spelling (integer spelling) := by
  refine (maybe_copies fun c hc => ?_).bind fun mark => ?_
  · simp [ne_of_endsNumeral hc (d := 'n') (by decide)]
  · split <;> exact .pure (by simp)

theorem decimal_copies : Copies endsNumeral Lexeme.spelling [] decimal := by
  have hpoint : Copies endsNumeral id [] (maybe (· = '.')) := maybe_copies fun c hc => by
    simp [ne_of_endsNumeral hc (d := '.') (by decide)]
  have hdigits : Copies endsNumeral id [] (digits Char.isDigit) :=
    digits_copies fun c => isDigit_of_endsNumeral
  refine hpoint.bind fun point => ?_
  split
  · refine hdigits.bind fun whole => .ite (fun _ _ _ e => by cases e) ?_
    refine hpoint.bind fun point => ?_
    split
    · refine exponent_copies.bind fun e => ?_
      split
      · simpa using integer_copies whole
      · exact .pure (by simp)
    · exact fraction_copies.bind fun part => exponent_copies.bind fun e =>
        .pure (by simp)
  · exact hdigits.bind fun part => exponent_copies.bind fun e => .pure (by simp)

theorem based?_of_endsNumeral {c : Char} (h : endsNumeral c) : based? c = none := by
  unfold based?
  split
  all_goals first
    | rfl
    | exact absurd h (by decide)

/-- The digits of no base end a number. -/
theorem digit_of_endsNumeral {c d : Char} {r : Char → Bool} (h : based? c = some r)
    (hd : endsNumeral d) : r d = false := by
  by_contra hr
  have hpart := isIdentifierPart_of_based? h (Bool.eq_true_of_not_eq_false hr)
  simp [endsNumeral, hpart] at hd

theorem literal_copies : Copies endsNumeral Lexeme.spelling [] literal := by
  intro cs rest l e
  by_cases hbase : ∃ c r ds, cs = '0' :: c :: ds ∧ based? c = some r
  · obtain ⟨c, r, ds, rfl, hc⟩ := hbase
    have hbased : Copies endsNumeral Lexeme.spelling ['0', c]
        (digits r >>= fun ds => integer ('0' :: c :: ds)) :=
      (digits_copies fun d => digit_of_endsNumeral hc).bind fun ds => integer_copies _
    rw [literal_of_based? hc] at e
    obtain ⟨w, rfl, htold, hmore⟩ := hbased e
    refine ⟨'0' :: c :: w, rfl, htold, fun u v hu hv => ?_⟩
    exact (literal_of_based? hc _).trans (hmore u v hu hv)
  · have hplain : ∀ c ds, cs = '0' :: c :: ds → based? c = none := by
      intro c ds hcs
      by_contra hc
      obtain ⟨r, hr⟩ := Option.ne_none_iff_exists'.1 hc
      exact hbase ⟨c, r, ds, hcs, hr⟩
    rw [literal_eq_decimal hplain] at e
    obtain ⟨w, rfl, htold, hmore⟩ := decimal_copies e
    refine ⟨w, rfl, htold, fun u v hu hv => ?_⟩
    rw [literal_eq_decimal, hmore u v hu hv]
    -- The letter of a base would have stood behind the zero in the first place.
    rintro c ds hcs
    obtain _ | ⟨d, _ | ⟨d', w⟩⟩ := w
    · exact absurd (takes_decimal e).2 (by simp)
    · obtain ⟨rfl, huv⟩ := List.cons.inj hcs
      cases u with
      | nil =>
        rw [List.nil_append] at huv
        rw [show v = c :: ds from huv] at hv
        exact based?_of_endsNumeral (opens_cons.1 hv)
      | cons d u =>
        obtain ⟨more, rfl⟩ := hu
        obtain ⟨rfl, -⟩ := List.cons.inj huv
        exact hplain d _ rfl
    · simp only [List.cons_append, List.cons.injEq] at hcs
      obtain ⟨rfl, rfl, -⟩ := hcs
      exact hplain d' _ rfl

/-- A number is read again from its spelling, in front of any text that does not go on with it. -/
theorem scan_spelling {cs rest : List Char} {l : Lexeme} (h : scan cs = some (l, rest))
    {q : List Char} (hq : Opens endsNumeral q) : scan (l.spelling ++ q) = some (l, q) := by
  obtain ⟨l', mid, hl, h⟩ := scan_bind_eq_some.1 h
  obtain ⟨rfl, rfl⟩ : l' = l ∧ mid = rest := by
    obtain ⟨c?, mid', hpeek, h⟩ := scan_bind_eq_some.1 h
    cases hpeek
    cases hmid : mid.head? with
    | none =>
      rw [hmid] at h
      cases h
      exact ⟨rfl, rfl⟩
    | some c =>
      simp only [hmid] at h
      split at h <;> cases h
      exact ⟨rfl, rfl⟩
  obtain ⟨w, -, htold, hmore⟩ := literal_copies hl
  obtain rfl : l'.spelling = w := htold
  refine scan_bind_eq_some.2 ⟨l', q, hmore [] q List.nil_prefix hq, ?_⟩
  cases q with
  | nil => rfl
  | cons c q =>
    have hc : (isIdentifierPart c || c = '\\') = false := by
      have hc := opens_cons.1 hq
      rw [endsNumeral, Bool.not_eq_true', Bool.or_eq_false_iff] at hc
      simp only [hc.1, Bool.false_or, decide_eq_false_iff_not]
      rintro rfl
      simp at hc
    simp only [scan_bind_apply, peek?, List.head?_cons, Option.bind_some, hc]
    rfl

end Numeral

/-! Templates. -/

/-- A text that may stand in a template up to such a mark. -/
def IsChunk (raw : List Char) (sound : Bool) : Prop :=
  ∀ closes more,
    Lexer.templateChunk (raw ++ (chunkEnd closes ++ more)) = some ((raw, sound, closes), more)

theorem opens_chunkEnd (closes : Bool) (more : List Char) :
    Opens Lexer.isMark (chunkEnd closes ++ more) := by
  cases closes <;> exact opens_cons.2 (by decide)

/-- A piece of a template is read again from its spelling, in front of whatever ends it. -/
theorem Lexer.templateChunk_spelling {cs raw rest : List Char} {sound last : Bool}
    (h : Lexer.templateChunk cs = some ((raw, sound, last), rest)) :
    cs = raw ++ (chunkEnd last ++ rest) ∧ IsChunk raw sound := by
  fun_induction Lexer.templateChunk cs generalizing raw rest sound last with
  | case1 => cases h
  | case2 cs =>
    cases h
    exact ⟨rfl, fun closes more => by cases closes <;> rfl⟩
  | case3 cs =>
    cases h
    exact ⟨rfl, fun closes more => by cases closes <;> rfl⟩
  | case4 c cs ih =>
    obtain ⟨⟨⟨raw, sound, last⟩, mid⟩, hchunk, h⟩ := Option.bind_eq_some_iff.mp h
    cases h
    obtain ⟨rfl, hmore⟩ := ih hchunk
    refine ⟨rfl, fun closes more => ?_⟩
    have hsound (closes : Bool) (more : List Char) :
        (Escape.unit (c :: (raw ++ (chunkEnd closes ++ more)))).isSome =
          (Escape.unit (c :: raw)).isSome := by
      rw [← List.cons_append, Escape.unit_append Lexer.noDigit_isMark (by decide) c
        (opens_chunkEnd closes more), Option.isSome_map]
    simp [Lexer.templateChunk, hmore closes more, hsound]
  | case5 c cs hquote hhole hescape ih =>
    obtain ⟨⟨⟨raw, sound, last⟩, mid⟩, hchunk, h⟩ := Option.bind_eq_some_iff.mp h
    cases h
    obtain ⟨rfl, hmore⟩ := ih hchunk
    refine ⟨rfl, fun closes more => ?_⟩
    rw [List.cons_append, Lexer.templateChunk, hmore closes more]
    · rfl
    · exact hquote
    · -- No brace stands behind this character but one that stood there before.
      intro ds hc he
      obtain _ | ⟨d, raw⟩ := raw
      · cases closes <;> cases he
      · obtain ⟨rfl, -⟩ := List.cons.inj he
        exact hhole _ hc rfl
    · rintro d ds hc -
      cases hcs : raw ++ (chunkEnd last ++ rest) with
      | nil => cases last <;> simp [chunkEnd] at hcs
      | cons e es => exact hescape e es hc hcs

end ApiSurface.Source
