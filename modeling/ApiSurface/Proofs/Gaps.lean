import ApiSurface.Proofs.AloofLexemes

/-! Gaps are white space and comments. The scanner skips the gap at the front of a text, all of it
and nothing else, and it sees the line breaks in it. -/
namespace ApiSurface.Source

/-- White space and comments. A line comment ends with its line; only at the end of a text the last
one needs no further line. -/
inductive IsGap : Bool → List Char → Prop
  | nil {last : Bool} : IsGap last []
  | space {last : Bool} {c : Char} {gap : List Char} (h : isLineBreak c ∨ isBlank c)
      (rest : IsGap last gap) : IsGap last (c :: gap)
  | lineComment {last : Bool} {body gap : List Char} {c : Char}
      (hbody : ∀ d ∈ body, isLineBreak d = false) (h : isLineBreak c) (rest : IsGap last gap) :
      IsGap last ('/' :: '/' :: (body ++ c :: gap))
  | blockComment {last : Bool} {body gap : List Char} (hbody : ¬ ['*', '/'] <:+: body)
      (rest : IsGap last gap) : IsGap last ('/' :: '*' :: (body ++ '*' :: '/' :: gap))
  | lastComment {body : List Char} (hbody : ∀ d ∈ body, isLineBreak d = false) :
      IsGap true ('/' :: '/' :: body)

/-- The text starts with white space or a comment. -/
def startsGap : List Char → Bool
  | '/' :: '/' :: _ => true
  | '/' :: '*' :: _ => true
  | c :: _ => isLineBreak c || isBlank c
  | [] => false

theorem startsGap_cons (c : Char) (cs : List Char) : startsGap (c :: cs) =
    (c = '/' && (cs.head? = some '/' || cs.head? = some '*') || isLineBreak c || isBlank c) := by
  by_cases hc : c = '/'
  · subst hc
    rcases cs with _ | ⟨d, cs⟩
    · rfl
    · by_cases hline : d = '/'
      · subst hline
        rfl
      · by_cases hblock : d = '*'
        · subst hblock
          rfl
        · simp [startsGap, hline, hblock]
  · simp [startsGap, hc]

/-- A line break behind a text does not make it start a gap. -/
theorem startsGap_append {cs : List Char} (h : cs ≠ []) (bs : List Char) :
    startsGap (cs ++ '\n' :: bs) = startsGap cs := by
  obtain ⟨c, cs, rfl⟩ := List.exists_cons_of_ne_nil h
  rw [List.cons_append, startsGap_cons, startsGap_cons]
  cases cs <;> simp

namespace Gap

theorem skip_space_cons {c : Char} (hc : c ≠ '/') (broken : Bool) (cs : List Char) :
    skip space broken (c :: cs) = if isLineBreak c then skip space true cs
      else if isBlank c then skip space broken cs else some (broken, c :: cs) := by
  rw [skip]
  · exact fun _ h _ => hc h
  · exact fun _ h _ => hc h

theorem skip_of_not_startsGap {cs : List Char} (h : startsGap cs = false) (broken : Bool) :
    skip space broken cs = some (broken, cs) := by
  unfold startsGap at h
  split at h
  · cases h
  · cases h
  · next c cs hline hblock =>
    obtain ⟨hbreak, hblank⟩ := Bool.or_eq_false_iff.mp h
    rw [skip, if_neg (by simp [hbreak]), if_neg (by simp [hblank])]
    · exact fun ds hc hcs => hline ds hc hcs
    · exact fun ds hc hcs => hblock ds hc hcs
  · exact skip_nil broken

theorem skip_lineComment {body : List Char} (hbody : ∀ d ∈ body, isLineBreak d = false) {c : Char}
    (hc : isLineBreak c) (broken : Bool) (rest : List Char) :
    skip lineComment broken (body ++ c :: rest) = skip space true rest := by
  induction body with
  | nil => rw [List.nil_append, skip, if_pos hc]
  | cons d body ih =>
    rw [List.cons_append, skip, if_neg (by simp [hbody d List.mem_cons_self])]
    exact ih fun e he => hbody e (List.mem_cons_of_mem d he)

theorem skip_lineComment_end {body : List Char} (hbody : ∀ d ∈ body, isLineBreak d = false)
    (broken : Bool) : skip lineComment broken body = some (broken, []) := by
  induction body with
  | nil => rw [skip]
  | cons d body ih =>
    rw [skip, if_neg (by simp [hbody d List.mem_cons_self])]
    exact ih fun e he => hbody e (List.mem_cons_of_mem d he)

theorem skip_blockComment {body : List Char} (hbody : ¬ ['*', '/'] <:+: body) (broken : Bool)
    (rest : List Char) : skip blockComment broken (body ++ '*' :: '/' :: rest) =
      skip space (broken || body.any isLineBreak) rest := by
  induction body generalizing broken with
  | nil => simp [skip]
  | cons d body ih =>
    have htail : ¬ ['*', '/'] <:+: body := fun h =>
      hbody (h.trans (List.suffix_cons d body).isInfix)
    rw [List.cons_append, skip, ih htail, List.any_cons, Bool.or_assoc]
    -- A star in the body stands before no slash, not even at its end.
    rintro cs rfl hcs
    cases body with
    | nil => cases hcs
    | cons e body =>
      obtain rfl : e = '/' := (List.cons.inj hcs).1
      exact hbody ⟨[], body, rfl⟩

end Gap

namespace IsGap

variable {last : Bool} {gap : List Char}

/-- The scanner skips a gap, and it sees the line breaks in it. -/
theorem skip (h : IsGap last gap) (broken : Bool) {rest : List Char}
    (hlast : last = true → rest = []) :
    Gap.skip .space broken (gap ++ rest) =
      Gap.skip .space (broken || gap.any isLineBreak) rest := by
  have hslash : isLineBreak '/' = false := by decide
  have hstar : isLineBreak '*' = false := by decide
  induction h generalizing broken with
  | nil => simp
  | @space last c gap hc _ ih =>
    have hne : c ≠ '/' := by
      rintro rfl
      revert hc
      decide
    rw [List.cons_append, Gap.skip_space_cons hne, List.any_cons]
    by_cases hbreak : isLineBreak c
    · simp [hbreak, ih true hlast]
    · simp [hbreak, hc.resolve_left hbreak, ih broken hlast]
  | @lineComment last body gap c hbody hc _ ih =>
    show Gap.skip .lineComment broken ((body ++ c :: gap) ++ rest) = _
    rw [List.append_assoc, List.cons_append, Gap.skip_lineComment hbody hc, ih true hlast]
    simp [hc]
  | @blockComment last body gap hbody _ ih =>
    show Gap.skip .blockComment broken ((body ++ '*' :: '/' :: gap) ++ rest) = _
    rw [List.append_assoc, List.cons_append, List.cons_append, Gap.skip_blockComment hbody,
      ih _ hlast]
    simp [hslash, hstar, Bool.or_assoc]
  | @lastComment body hbody =>
    obtain rfl := hlast rfl
    have hline : body.any isLineBreak = false := by simpa using hbody
    show Gap.skip .lineComment broken (body ++ []) = _
    rw [List.append_nil, Gap.skip_lineComment_end hbody, Gap.skip_nil]
    simp [hslash, hline]

theorem skip_inner (h : IsGap false gap) (broken : Bool) (rest : List Char) :
    Gap.skip .space broken (gap ++ rest) = Gap.skip .space (broken || gap.any isLineBreak) rest :=
  h.skip broken (by simp)

/-- A line break ends the last comment, so that any gap may go on in the next line. -/
theorem newLine (h : IsGap last gap) : IsGap false (gap ++ ['\n']) := by
  have hbreak : IsGap false ['\n'] := .space (.inl rfl) .nil
  induction h with
  | nil => exact hbreak
  | space hc _ ih => exact .space hc ih
  | @lineComment last body gap c hbody hc _ ih =>
    rw [List.cons_append, List.cons_append, List.append_assoc, List.cons_append]
    exact .lineComment hbody hc ih
  | @blockComment last body gap hbody _ ih =>
    rw [List.cons_append, List.cons_append, List.append_assoc, List.cons_append, List.cons_append]
    exact .blockComment hbody ih
  | lastComment hbody => exact .lineComment hbody rfl .nil

/-- A gap opens with white space or a slash. -/
theorem opens (h : IsGap last gap) : Opens isGapHead gap := by
  cases h with
  | nil => exact opens_nil
  | space hc _ => exact opens_cons.mpr (by simpa [isGapHead] using .inl hc)
  | lineComment _ _ _ => exact opens_cons.mpr (by decide)
  | blockComment _ _ => exact opens_cons.mpr (by decide)
  | lastComment _ => exact opens_cons.mpr (by decide)

end IsGap

namespace Gap

/-- The text is a gap with the rest behind it. -/
def SkippedSpace (rest cs : List Char) : Prop :=
  ∃ last gap, IsGap last gap ∧ cs = gap ++ rest ∧ (last = true → rest = [])

/-- The text goes on with what is left of a gap, and has the rest behind it. -/
def Skipped (rest cs : List Char) : Gap → Prop
  | space => SkippedSpace rest cs
  | lineComment => ∃ body tail, cs = body ++ tail ∧ (∀ d ∈ body, isLineBreak d = false) ∧
      (tail = [] ∧ rest = [] ∨
        ∃ c behind, tail = c :: behind ∧ isLineBreak c ∧ SkippedSpace rest behind)
  | blockComment => ∃ body behind, cs = body ++ '*' :: '/' :: behind ∧
      ¬ ['*', '/'] <:+: body ∧ SkippedSpace rest behind

theorem skipped_of_skip {g : Gap} {broken b : Bool} {cs rest : List Char}
    (h : skip g broken cs = some (b, rest)) : Skipped rest cs g ∧ startsGap rest = false := by
  fun_induction skip g broken cs with
  | case1 broken cs ih =>
    obtain ⟨⟨body, tail, rfl, hbody,
      ⟨rfl, rfl⟩ | ⟨c, behind, rfl, hc, last, gap, hgap, rfl, hlast⟩⟩, hrest⟩ := ih h
    · exact ⟨⟨true, _, .lastComment hbody, by simp, fun _ => rfl⟩, hrest⟩
    · exact ⟨⟨last, _, .lineComment hbody hc hgap, by simp, hlast⟩, hrest⟩
  | case2 broken cs ih =>
    obtain ⟨⟨body, behind, rfl, hbody, last, gap, hgap, rfl, hlast⟩, hrest⟩ := ih h
    exact ⟨⟨last, _, .blockComment hbody hgap, by simp, hlast⟩, hrest⟩
  | case3 broken c cs hline hblock hc ih =>
    obtain ⟨⟨last, gap, hgap, rfl, hlast⟩, hrest⟩ := ih h
    exact ⟨⟨last, _, .space (.inl hc) hgap, rfl, hlast⟩, hrest⟩
  | case4 broken c cs hline hblock hc hblank ih =>
    obtain ⟨⟨last, gap, hgap, rfl, hlast⟩, hrest⟩ := ih h
    exact ⟨⟨last, _, .space (.inr hblank) hgap, rfl, hlast⟩, hrest⟩
  | case5 broken c cs hline hblock hc hblank =>
    cases h
    refine ⟨⟨false, [], .nil, rfl, by simp⟩, ?_⟩
    rw [startsGap_cons]
    cases cs with
    | nil => simp [hc, hblank]
    | cons d cs => simp_all
  | case6 broken =>
    cases h
    exact ⟨⟨false, [], .nil, rfl, by simp⟩, rfl⟩
  | case7 broken c cs hc ih =>
    obtain ⟨hskipped, hrest⟩ := ih h
    exact ⟨⟨[], c :: cs, rfl, by simp, .inr ⟨c, cs, rfl, hc, hskipped⟩⟩, hrest⟩
  | case8 broken c cs hc ih =>
    obtain ⟨⟨body, tail, rfl, hbody, hskipped⟩, hrest⟩ := ih h
    have hbody' : ∀ d ∈ c :: body, isLineBreak d = false :=
      List.forall_mem_cons.mpr ⟨Bool.eq_false_iff.mpr hc, hbody⟩
    exact ⟨⟨c :: body, tail, rfl, hbody', hskipped⟩, hrest⟩
  | case9 broken =>
    cases h
    exact ⟨⟨[], [], rfl, by simp, .inl ⟨rfl, rfl⟩⟩, rfl⟩
  | case10 broken cs ih =>
    obtain ⟨hskipped, hrest⟩ := ih h
    exact ⟨⟨[], cs, rfl, by decide, hskipped⟩, hrest⟩
  | case11 broken c cs hend ih =>
    obtain ⟨⟨body, behind, rfl, hbody, hskipped⟩, hrest⟩ := ih h
    refine ⟨⟨c :: body, behind, rfl, fun hinfix => ?_, hskipped⟩, hrest⟩
    -- A star that closes the comment would have ended it.
    cases List.infix_cons_iff.mp hinfix with
    | inl hprefix =>
      obtain ⟨hc, hslash⟩ := List.cons_prefix_cons.mp hprefix
      obtain ⟨tail, rfl⟩ := hslash
      exact hend _ hc.symm rfl
    | inr hmore => exact hbody hmore
  | case12 => cases h

/-- The scanner skips the gap at the front of a text, and all of it, and sees its line breaks. -/
theorem skip_eq_some_iff {broken b : Bool} {cs rest : List Char} :
    skip space broken cs = some (b, rest) ↔ startsGap rest = false ∧
      ∃ last gap, IsGap last gap ∧ cs = gap ++ rest ∧ (last = true → rest = []) ∧
        b = (broken || gap.any isLineBreak) := by
  constructor
  · intro h
    obtain ⟨⟨last, gap, hgap, rfl, hlast⟩, hrest⟩ := skipped_of_skip h
    rw [hgap.skip broken hlast, skip_of_not_startsGap hrest] at h
    exact ⟨hrest, last, gap, hgap, rfl, hlast, (Prod.mk.inj (Option.some.inj h)).1.symm⟩
  · rintro ⟨hrest, last, gap, hgap, rfl, hlast, rfl⟩
    rw [hgap.skip broken hlast, skip_of_not_startsGap hrest]

/-- A gap that leaves nothing goes on in the next line, and no other does. -/
theorem skip_append {broken b : Bool} {cs rest : List Char}
    (h : skip space broken cs = some (b, rest)) (bs : List Char) :
    skip space broken (cs ++ '\n' :: bs) =
      if rest = [] then skip space true bs else some (b, rest ++ '\n' :: bs) := by
  obtain ⟨hrest, last, gap, hgap, rfl, hlast, rfl⟩ := skip_eq_some_iff.mp h
  split
  · next hnil =>
    have hjoined : gap ++ rest ++ '\n' :: bs = (gap ++ ['\n']) ++ bs := by simp [hnil]
    have hbreak : (gap ++ ['\n']).any isLineBreak = true := by simp [show isLineBreak '\n' from rfl]
    rw [hjoined, hgap.newLine.skip_inner broken bs, hbreak, Bool.or_true]
  · next hne =>
    rw [List.append_assoc, hgap.skip broken fun hl => absurd (hlast hl) hne]
    exact skip_of_not_startsGap ((startsGap_append hne bs).trans hrest) _

end Gap
end ApiSurface.Source
