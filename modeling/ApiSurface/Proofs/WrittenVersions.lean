import ApiSurface.Version

/-! The two written forms of a version. A version with all its parts is read back from either form,
and the form it is written in does not count in a comparison. -/
namespace ApiSurface

/-! Scanners on what they are made for. -/

namespace Text.Scan

variable {α β : Type}

theorem bind_apply (s : Scan α) (f : α → Scan β) (cs : List Char) :
    (s >>= f) cs = (s cs).bind fun r => f r.1 r.2 := rfl

@[simp] theorem pure_apply (a : α) (cs : List Char) : (pure a : Scan α) cs = some (a, cs) := rfl

@[simp] theorem get_apply (cs : List Char) : (get : Scan (List Char)) cs = some (cs, cs) := rfl

@[simp] theorem char_cons (c : Char) (cs : List Char) : char c (c :: cs) = some ((), cs) := by
  simp [char]

/-- A run ends where a character of another class comes next, or nothing. -/
theorem someRun_append {p : Char → Bool} {ds rest : List Char} (hne : ds ≠ [])
    (hds : ∀ d ∈ ds, p d) (hrest : ∀ c ∈ rest.head?, p c = false) :
    someRun p (ds ++ rest) = some (ds, rest) := by
  have hend : rest.takeWhile p = [] ∧ rest.dropWhile p = rest := by
    cases rest with
    | nil => simp
    | cons c cs => simp [hrest c rfl]
  have htake : (ds ++ rest).takeWhile p = ds := by
    rw [List.takeWhile_append_of_pos hds, hend.1, List.append_nil]
  have hdrop : (ds ++ rest).dropWhile p = rest := by
    rw [List.dropWhile_append_of_pos hds, hend.2]
  rw [someRun, bind_apply, run_apply, htake, hdrop]
  cases ds with
  | nil => exact absurd rfl hne
  | cons d ds => rfl

theorem someRun_of_head {p : Char → Bool} {cs : List Char} (h : ∀ c ∈ cs.head?, p c = false) :
    someRun p cs = none := by
  cases cs with
  | nil => rfl
  | cons c cs => simp [someRun, bind_apply, h c rfl, fail]

theorem attempt_of_some {s : Scan α} {cs rest : List Char} {a : α} (h : s cs = some (a, rest)) :
    attempt s cs = some (some a, rest) := by simp [attempt, h]

end Text.Scan

namespace Version
open Text Text.Scan

/-! Numbers. -/

/-- Three numbers of 64 bits. -/
structure Numbers where
  major : UInt64
  minor : UInt64
  patch : UInt64

namespace Numbers

def semver (n : Numbers) : Semver := ⟨n.major.toNat, n.minor.toNat, n.patch.toNat⟩

def spelling (n : Numbers) : List Char × List Char × List Char :=
  (Nat.toDigits 10 n.major.toNat, Nat.toDigits 10 n.minor.toNat, Nat.toDigits 10 n.patch.toNat)

theorem toList_display (n : Numbers) : n.semver.display.toList =
    n.spelling.1 ++ '.' :: (n.spelling.2.1 ++ '.' :: n.spelling.2.2) := by
  simp [semver, spelling, Semver.display]

end Numbers

/-- Digits are read back as the number that they were written for. -/
theorem number?_toDigits (n : UInt64) : number? (Nat.toDigits 10 n.toNat) = some n.toNat := by
  have hdigits : (Nat.toDigits 10 n.toNat).all Char.isDigit :=
    List.all_eq_true.2 fun _ hc => Nat.isDigit_of_mem_toDigits (by decide) (by decide) hc
  have hvalue : (Nat.toDigits 10 n.toNat).foldl (fun n c => n * 10 + (c.toNat - 48)) 0 =
      n.toNat := by
    have h := Nat.ofDigitChars_ten_toDigits (n := n.toNat)
    simp only [Nat.ofDigitChars_eq_foldl, Nat.mul_comm 10] at h
    exact h
  have hbound : n.toNat < UInt64.size := n.toNat_lt
  simp only [number?, hdigits, hvalue, hbound, if_true]

theorem semver?_spelling (n : Numbers) : semver? n.spelling = some n.semver := by
  simp only [Numbers.spelling, semver?, number?_toDigits]
  rfl

theorem digits_toDigits (n : Nat) {rest : List Char}
    (hrest : ∀ c ∈ rest.head?, isDecimalDigit c = false) :
    digits (Nat.toDigits 10 n ++ rest) = some (Nat.toDigits 10 n, rest) :=
  someRun_append Nat.toDigits_ne_nil
    (fun _ hc => isDecimalDigit_of_isDigit <|
      Nat.isDigit_of_mem_toDigits (by decide) (by decide) hc) hrest

theorem point_not_digit (cs : List Char) : ∀ c ∈ ('.' :: cs).head?, isDecimalDigit c = false := by
  rintro _ ⟨⟩
  decide

theorem hyphen_not_digit (cs : List Char) : ∀ c ∈ ('-' :: cs).head?, isDecimalDigit c = false := by
  rintro _ ⟨⟩
  decide

theorem triple_display (n : Numbers) {rest : List Char}
    (hrest : ∀ c ∈ rest.head?, isDecimalDigit c = false) :
    triple (n.semver.display.toList ++ rest) = some (n.spelling, rest) := by
  have hmajor := digits_toDigits n.major.toNat (point_not_digit
    (n.spelling.2.1 ++ '.' :: (n.spelling.2.2 ++ rest)))
  have hminor := digits_toDigits n.minor.toNat (point_not_digit (n.spelling.2.2 ++ rest))
  have hpatch := digits_toDigits n.patch.toNat hrest
  rw [n.toList_display]
  simp only [Numbers.spelling, List.append_assoc, List.cons_append] at hmajor hminor ⊢
  simp only [triple, bind_apply, hmajor, hminor, hpatch, char_cons, pure_apply, Option.bind_some]

/-! Words. -/

/-- A word of a version text: small letters, one at least. -/
structure Word where
  letters : List Char
  ne_nil : letters ≠ []
  small : ∀ c ∈ letters, ('a' ≤ c && c ≤ 'z') = true

namespace Word

def stable : Word := ⟨"stable".toList, by decide, List.all_eq_true.1 (by decide)⟩

/-- The word that the current form has for a build. -/
def renewed (w : Word) : Word := if w.letters = "release".toList then stable else w

end Word

theorem word_letters (w : Word) {rest : List Char}
    (hrest : ∀ c ∈ rest.head?, ('a' ≤ c && c ≤ 'z') = false) :
    word (w.letters ++ rest) = some (w.letters, rest) :=
  someRun_append w.ne_nil w.small hrest

theorem word_before_point (w : Word) (cs : List Char) :
    word (w.letters ++ '.' :: cs) = some (w.letters, '.' :: cs) :=
  word_letters w (by rintro _ ⟨⟩; decide)

/-- No word opens with a digit. -/
theorem exists_cons_of_word (w : Word) :
    ∃ c cs, w.letters = c :: cs ∧ isDecimalDigit c = false := by
  obtain ⟨letters, hne, hsmall⟩ := w
  cases letters with
  | nil => exact absurd rfl hne
  | cons c cs =>
    refine ⟨c, cs, rfl, ?_⟩
    have hc := hsmall c List.mem_cons_self
    simp only [Bool.and_eq_true, decide_eq_true_eq, Char.le_def, UInt32.le_iff_toNat_le] at hc
    have hlow : 97 ≤ c.toNat := hc.1
    have hhigh : c.toNat ≤ 122 := hc.2
    -- between the ASCII digits and the next zero, that of the Arabic digits
    simp only [isDecimalDigit, List.any_eq_false, Bool.and_eq_true, decide_eq_true_eq]
    intro z hz
    have hzeros : ∀ z ∈ digitZeros, z = 48 ∨ 122 < z := by decide
    rcases hzeros z hz with rfl | hz <;> omega

/-! Both forms. -/

/-- A version with all its parts; the revision may be left out. -/
structure Full where
  package : Numbers
  tag : Word
  game : Numbers
  build : Word
  revision : Option UInt64

/-- A revision as it is written, behind a point. -/
def revisionText : Option UInt64 → String
  | some r => "." ++ toString r.toNat
  | none => ""

namespace Full

/-- As in `1.5.0-beta.1.20.20-preview.23`. -/
def current (v : Full) : String :=
  v.package.semver.display ++ "-" ++ String.ofList v.tag.letters ++ "." ++
    v.game.semver.display ++ "-" ++ String.ofList v.build.letters ++ revisionText v.revision

/-- As in `1.1.0-beta.release.1.19.50.3`. -/
def older (v : Full) : String :=
  v.package.semver.display ++ "-" ++ String.ofList v.tag.letters ++ "." ++
    String.ofList v.build.letters ++ "." ++ v.game.semver.display ++ revisionText v.revision

/-- The version with its build named as in the current form. -/
def renewed (v : Full) : Full := { v with build := v.build.renewed }

/-- The version that the parts make up. -/
def version (v : Full) : Version where
  semver := v.package.semver
  tag := Tag.ofWord v.tag.letters
  game := some v.game.semver
  build := some (Build.ofWord v.build.letters)
  revision := (v.revision.map UInt64.toNat).getD 0

/-- The parts as either form spells them. -/
def parts (v : Full) : Parts where
  semver := v.package.spelling
  tag := some v.tag.letters
  game := some v.game.spelling
  build := some v.build.letters
  revision := v.revision.map fun r => Nat.toDigits 10 r.toNat

end Full

theorem ending_revisionText (r : Option UInt64) :
    ending (revisionText r).toList = some (r.map fun r => Nat.toDigits 10 r.toNat, []) := by
  cases r with
  | none => rfl
  | some r =>
    have htext : (revisionText (some r)).toList = '.' :: Nat.toDigits 10 r.toNat := by
      simp [revisionText]
    have hdigits : digits (Nat.toDigits 10 r.toNat) = some (Nat.toDigits 10 r.toNat, []) := by
      have hnil : ∀ c ∈ ([] : List Char).head?, isDecimalDigit c = false := nofun
      simpa using digits_toDigits r.toNat hnil
    simp only [htext, ending, bind_apply, attempt_of_some (char_cons _ _), Option.bind_some,
      attempt_of_some hdigits, finish, pure_apply, Option.map_some]

/-- A revision opens with a point, if it is written at all. -/
theorem head_revisionText (r : Option UInt64) : ∀ c ∈ (revisionText r).toList.head?, c = '.' := by
  cases r with
  | none => nofun
  | some r =>
    simp only [revisionText, String.toList_append]
    rintro _ ⟨⟩
    rfl

theorem head_revisionText_of_point (r : Option UInt64) {p : Char → Bool} (hp : p '.' = false) :
    ∀ c ∈ (revisionText r).toList.head?, p c = false := by
  intro c hc
  obtain rfl := head_revisionText r c hc
  exact hp

theorem currentParts_current (v : Full) : currentParts v.current.toList = some (v.parts, []) := by
  have hpackage := triple_display v.package (hyphen_not_digit
    (v.tag.letters ++ '.' :: (v.game.semver.display.toList ++
      '-' :: (v.build.letters ++ (revisionText v.revision).toList))))
  have htag := word_before_point v.tag (v.game.semver.display.toList ++
    '-' :: (v.build.letters ++ (revisionText v.revision).toList))
  have hgame := triple_display v.game (hyphen_not_digit
    (v.build.letters ++ (revisionText v.revision).toList))
  have hbuild := word_letters v.build (head_revisionText_of_point v.revision (by decide))
  have htext : v.current.toList = v.package.semver.display.toList ++
      '-' :: (v.tag.letters ++ '.' :: (v.game.semver.display.toList ++
        '-' :: (v.build.letters ++ (revisionText v.revision).toList))) := by
    simp [Full.current]
  rw [htext]
  simp only [currentParts, hpackage, get_apply, bind_apply, char_cons, Option.bind_some, htag,
    hgame, hbuild, ending_revisionText, pure_apply]
  rfl

/-- What stands behind the tag of the older form is no game version. -/
theorem currentParts_older (v : Full) : currentParts v.older.toList = none := by
  have hpackage := triple_display v.package (hyphen_not_digit
    (v.tag.letters ++ '.' :: (v.build.letters ++ '.' ::
      (v.game.semver.display.toList ++ (revisionText v.revision).toList))))
  have htag := word_before_point v.tag (v.build.letters ++ '.' ::
    (v.game.semver.display.toList ++ (revisionText v.revision).toList))
  have htext : v.older.toList = v.package.semver.display.toList ++
      '-' :: (v.tag.letters ++ '.' :: (v.build.letters ++ '.' ::
        (v.game.semver.display.toList ++ (revisionText v.revision).toList))) := by
    simp [Full.older]
  obtain ⟨c, cs, hbuild, hc⟩ := exists_cons_of_word v.build
  have hgame : triple (v.build.letters ++ '.' ::
      (v.game.semver.display.toList ++ (revisionText v.revision).toList)) = none := by
    rw [hbuild, triple, bind_apply, digits,
      someRun_of_head (by rintro _ ⟨⟩; exact hc), Option.bind_none]
  rw [htext]
  simp only [currentParts, hpackage, get_apply, bind_apply, char_cons, Option.bind_some, htag,
    hgame, Option.bind_none]

theorem olderParts_older (v : Full) : olderParts v.older.toList = some (v.parts, []) := by
  have hpackage := triple_display v.package (hyphen_not_digit
    (v.tag.letters ++ '.' :: (v.build.letters ++ '.' ::
      (v.game.semver.display.toList ++ (revisionText v.revision).toList))))
  have htag := word_before_point v.tag (v.build.letters ++ '.' ::
    (v.game.semver.display.toList ++ (revisionText v.revision).toList))
  have hbuild : (do char '.'; word : Scan (List Char)) ('.' :: (v.build.letters ++ '.' ::
      (v.game.semver.display.toList ++ (revisionText v.revision).toList))) =
      some (v.build.letters,
        '.' :: (v.game.semver.display.toList ++ (revisionText v.revision).toList)) := by
    rw [bind_apply, char_cons, Option.bind_some, word_before_point]
  have hgame := triple_display v.game (head_revisionText_of_point v.revision (by decide))
  have htext : v.older.toList = v.package.semver.display.toList ++
      '-' :: (v.tag.letters ++ '.' :: (v.build.letters ++ '.' ::
        (v.game.semver.display.toList ++ (revisionText v.revision).toList))) := by
    simp [Full.older]
  rw [htext]
  simp only [olderParts, bind_apply, hpackage, char_cons, Option.bind_some, htag,
    attempt_of_some hbuild, hgame, ending_revisionText, pure_apply]
  rfl

/-! What the forms are read as. -/

theorem revision_bind (r : Option UInt64) :
    ((r.map fun r => Nat.toDigits 10 r.toNat).bind number?).getD 0 =
      (r.map UInt64.toNat).getD 0 := by
  cases r with
  | none => rfl
  | some r => simp [number?_toDigits]

theorem ofCurrentParts?_parts (v : Full) : ofCurrentParts? v.parts = some v.version := by
  simp only [ofCurrentParts?, Full.parts, semver?_spelling, revision_bind, Option.bind_some]
  rfl

/-- The older form has a name of its own for the stable build. -/
theorem ofOlderParts?_parts (v : Full) : ofOlderParts? v.parts = some v.renewed.version := by
  have hbuild : (if v.build.letters = "release".toList then Build.stable
      else Build.ofWord v.build.letters) = Build.ofWord v.build.renewed.letters := by
    unfold Word.renewed
    split
    · rfl
    · rfl
  simp only [ofOlderParts?, Full.parts, semver?_spelling, revision_bind, Option.bind_some,
    Option.map_some, hbuild]
  rfl

theorem parse?_current (v : Full) : parse? v.current = some v.version := by
  have h : currentParts.run' v.current.toList = some v.parts := by
    simp [StateT.run', currentParts_current]
  simp only [parse?, h, ofCurrentParts?_parts]

theorem parse?_older (v : Full) : parse? v.older = some v.renewed.version := by
  have hcurrent : currentParts.run' v.older.toList = none := by
    simp [StateT.run', currentParts_older]
  have holder : olderParts.run' v.older.toList = some v.parts := by
    simp [StateT.run', olderParts_older]
  simp only [parse?, hcurrent, holder, Option.bind_some, ofOlderParts?_parts]

/-- The current form is read as its fields and the older one as the current form with the build
renamed; a revision that is left out is zero; and an order of two versions is the same whichever
forms they are written in. -/
theorem written_forms_agree (v w : Full) :
    parse? v.current = some v.version ∧
    parse? v.older = parse? v.renewed.current ∧
    parse? { v with revision := none }.current = parse? { v with revision := some 0 }.current ∧
    parse? { v with revision := none }.older = parse? { v with revision := some 0 }.older ∧
    ∀ a ∈ [v.older, v.renewed.current], ∀ b ∈ [w.older, w.renewed.current],
      compareTexts a b = v.renewed.version.compare w.renewed.version := by
  have hforms : ∀ u : Full, ∀ a ∈ [u.older, u.renewed.current],
      parse? a = some u.renewed.version := by
    intro u a ha
    simp only [List.mem_cons, List.not_mem_nil, or_false] at ha
    rcases ha with rfl | rfl
    · exact parse?_older u
    · exact parse?_current u.renewed
  refine ⟨parse?_current v, ?_, ?_, ?_, ?_⟩
  · rw [parse?_older, parse?_current]
  · rw [parse?_current, parse?_current]
    rfl
  · rw [parse?_older, parse?_older]
    rfl
  · intro a ha b hb
    rw [compareTexts, hforms v a ha, hforms w b hb]

end Version
end ApiSurface
