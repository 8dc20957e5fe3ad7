import ApiSurface.Proofs.VersionSorting
import ApiSurface.Proofs.FrontScans

/-! The tag of a version and the word its text puts behind the package numbers. The word counts
where a build is named; a text of the older form without a build is a release whatever it says. -/
namespace ApiSurface
namespace Version
open Text Text.Scan Source

/-- The word behind the package numbers, for any text that opens with such numbers. -/
def leadingWord? (text : List Char) : Option (List Char) :=
  (triple text).bind fun r => match r.2 with
    | '-' :: cs => (word cs).map Prod.fst
    | _ => none

/-- The tag that the word behind the package numbers stands for. No word stands for a release. -/
def wordTag (text : String) : Tag :=
  ((leadingWord? text.toList).map Tag.ofWord).getD .release

/-! The parts. -/

theorem char_eq_some {c : Char} {cs : List Char} {r : Unit × List Char} :
    char c cs = some r ↔ cs = c :: r.2 := by
  cases cs with
  | nil => simp [char]
  | cons d ds =>
    obtain ⟨⟨⟩, rest⟩ := r
    by_cases h : d = c <;> simp [char, h]

theorem leadingWord?_of_word {cs mid ds rest : List Char}
    {s : List Char × List Char × List Char} {w : List Char}
    (hs : triple cs = some (s, mid)) (hmid : mid = '-' :: ds) (hw : word ds = some (w, rest)) :
    leadingWord? cs = some w := by
  subst hmid
  simp [leadingWord?, hs, hw]

theorem leadingWord?_of_end {cs : List Char} {s : List Char × List Char × List Char}
    (hs : triple cs = some (s, [])) : leadingWord? cs = none := by
  simp [leadingWord?, hs]

/-- The current form has a build exactly where it has a tag. -/
theorem parts_of_currentParts {cs rest : List Char} {p : Parts}
    (h : currentParts cs = some (p, rest)) :
    p.tag = leadingWord? cs ∧ (p.build = none → p.tag = none) := by
  obtain ⟨s, mid, hs, h⟩ := scan_bind_eq_some.1 h
  obtain ⟨left, _, hleft, h⟩ := scan_bind_eq_some.1 h
  cases hleft
  cases mid with
  | nil =>
    cases h
    exact ⟨(leadingWord?_of_end hs).symm, fun _ => rfl⟩
  | cons c cs' =>
    obtain ⟨_, _, hhyphen, h⟩ := scan_bind_eq_some.1 h
    obtain ⟨w, _, hw, h⟩ := scan_bind_eq_some.1 h
    obtain ⟨_, _, _, h⟩ := scan_bind_eq_some.1 h
    obtain ⟨g, _, _, h⟩ := scan_bind_eq_some.1 h
    obtain ⟨_, _, _, h⟩ := scan_bind_eq_some.1 h
    obtain ⟨b, _, _, h⟩ := scan_bind_eq_some.1 h
    obtain ⟨r, _, _, h⟩ := scan_bind_eq_some.1 h
    cases h
    exact ⟨(leadingWord?_of_word hs (char_eq_some.1 hhyphen) hw).symm, nofun⟩

/-- The older form always has a tag. -/
theorem tag_of_olderParts {cs rest : List Char} {p : Parts} (h : olderParts cs = some (p, rest)) :
    p.tag = leadingWord? cs := by
  obtain ⟨s, _, hs, h⟩ := scan_bind_eq_some.1 h
  obtain ⟨_, _, hhyphen, h⟩ := scan_bind_eq_some.1 h
  obtain ⟨w, _, hw, h⟩ := scan_bind_eq_some.1 h
  obtain ⟨b, _, _, h⟩ := scan_bind_eq_some.1 h
  obtain ⟨_, _, _, h⟩ := scan_bind_eq_some.1 h
  obtain ⟨g, _, _, h⟩ := scan_bind_eq_some.1 h
  obtain ⟨r, _, _, h⟩ := scan_bind_eq_some.1 h
  cases h
  exact (leadingWord?_of_word hs (char_eq_some.1 hhyphen) hw).symm

/-! The versions. -/

theorem ofCurrentParts?_eq_some {p : Parts} {v : Version} (h : ofCurrentParts? p = some v) :
    v.tag = (p.tag.map Tag.ofWord).getD .release ∧ v.build = p.build.map Build.ofWord := by
  obtain ⟨s, _, h⟩ := Option.bind_eq_some_iff.1 h
  cases h
  exact ⟨rfl, rfl⟩

theorem ofOlderParts?_eq_some {p : Parts} {v : Version} (h : ofOlderParts? p = some v) :
    v.tag = (if v.build.isSome then (p.tag.map Tag.ofWord).getD .release else .release) := by
  obtain ⟨s, _, h⟩ := Option.bind_eq_some_iff.1 h
  cases h
  cases hbuild : p.build with
  | none => rfl
  | some w => rfl

theorem run'_eq_some {α : Type} {s : Scan α} {cs : List Char} {a : α} :
    s.run' cs = some a ↔ ∃ rest, s cs = some (a, rest) := by
  simp [StateT.run']

/-- The word behind the package numbers is the tag of a version that has a build. -/
theorem tag_of_parse? {text : String} {v : Version} (h : parse? text = some v) :
    v.tag = if v.build.isSome then wordTag text else .release := by
  unfold parse? at h
  split at h
  case h_1 p hp =>
    obtain ⟨rest, hp⟩ := run'_eq_some.1 hp
    obtain ⟨htag, hbuild⟩ := ofCurrentParts?_eq_some h
    obtain ⟨hword, hnone⟩ := parts_of_currentParts hp
    rw [htag, hbuild, wordTag, ← hword]
    cases hb : p.build with
    | none => simp [hnone hb]
    | some w => rfl
  case h_2 =>
    obtain ⟨p, hp, h⟩ := Option.bind_eq_some_iff.1 h
    obtain ⟨rest, hp⟩ := run'_eq_some.1 hp
    rw [ofOlderParts?_eq_some h, wordTag, tag_of_olderParts hp]

/-! The order. -/

theorem Tag.rank_le (t : Tag) : t.rank ≤ Tag.rank .release := by cases t <;> decide

theorem compare_of_semver_eq {v w : Version} (h : v.semver = w.semver) :
    v.compare w = (((Ord.compare v.tag.rank w.tag.rank).then
      (Semver.compareMissingLast v.game w.game)).then
      (Build.compareMissingFirst v.build w.build)).then (Ord.compare v.revision w.revision) := by
  have hself : w.semver.compare w.semver = .eq := Std.ReflCmp.compare_self
  rw [compare, h, hself]
  rfl

theorem compare_of_rank_lt {v w : Version} (h : v.semver = w.semver)
    (hrank : v.tag.rank < w.tag.rank) : v.compare w = .lt := by
  rw [compare_of_semver_eq h, Nat.compare_eq_lt.2 hrank]
  rfl

theorem compare_of_rank_gt {v w : Version} (h : v.semver = w.semver)
    (hrank : w.tag.rank < v.tag.rank) : v.compare w = .gt := by
  rw [compare_of_semver_eq h, Nat.compare_eq_gt.2 hrank]
  rfl

/-- Of two versions of one package version, the one whose text leads with the lower word comes
first if it has a build. Without a build it is a release, and comes last where the word of the other
one counts and is no `release`. -/
theorem compareTexts_of_leading_words {a b : String} {v w : Version} (ha : parse? a = some v)
    (hb : parse? b = some w) (hsemver : v.semver = w.semver)
    (hwords : (wordTag a).rank < (wordTag b).rank) :
    (v.build.isSome → compareTexts a b = .lt) ∧
    (v.build = none → v.tag = .release ∧
      (w.build.isSome → wordTag b ≠ .release → compareTexts a b = .gt)) := by
  have htexts : compareTexts a b = v.compare w := by rw [compareTexts, ha, hb]
  have hv := tag_of_parse? ha
  have hw := tag_of_parse? hb
  rw [htexts]
  refine ⟨fun hbuild => compare_of_rank_lt hsemver ?_, fun hbuild => ?_⟩
  · rw [if_pos hbuild] at hv
    rw [hv, hw]
    -- a text without a build is a release, the highest tag, so its word need not count
    split
    · exact hwords
    · exact lt_of_lt_of_le hwords (Tag.rank_le _)
  · rw [hbuild] at hv
    have hrelease : v.tag = .release := hv
    refine ⟨hrelease, fun hwbuild hne => compare_of_rank_gt hsemver ?_⟩
    rw [if_pos hwbuild] at hw
    rw [hrelease, hw]
    exact lt_of_le_of_ne (Tag.rank_le _) fun h => hne (Tag.rank_injective h)

/-- The current form and the older one with a build. -/
theorem compareTexts_of_leading_words_beta :
    compareTexts "1.1.0-beta.release.1.19.50" "1.1.0-rc.1.20.10-stable.2" = .lt :=
  (compareTexts_of_leading_words
    (v := ⟨⟨1, 1, 0⟩, .beta, some ⟨1, 19, 50⟩, some .stable, 0⟩)
    (w := ⟨⟨1, 1, 0⟩, .rc, some ⟨1, 20, 10⟩, some .stable, 2⟩)
    (by decide +kernel) (by decide +kernel) rfl (by decide +kernel)).1 rfl

/-- A beta of the older form that names no build comes after a candidate. -/
theorem not_compareTexts_of_leading_words :
    ¬∀ (a b : String) (v w : Version), parse? a = some v → parse? b = some w →
      v.semver = w.semver → (wordTag a).rank < (wordTag b).rank → compareTexts a b = .lt := by
  intro h
  have hlt := h "1.1.0-beta.1.19.50" "1.1.0-rc.1.20.10-stable"
    ⟨⟨1, 1, 0⟩, .release, some ⟨1, 19, 50⟩, none, 0⟩
    ⟨⟨1, 1, 0⟩, .rc, some ⟨1, 20, 10⟩, some .stable, 0⟩
    (by decide +kernel) (by decide +kernel) rfl (by decide +kernel)
  have hgt : compareTexts "1.1.0-beta.1.19.50" "1.1.0-rc.1.20.10-stable" = .gt := by decide +kernel
  rw [hgt] at hlt
  exact Ordering.noConfusion hlt

end Version
end ApiSurface
