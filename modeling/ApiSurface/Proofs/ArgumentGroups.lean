import Mathlib
import ApiSurface.CommandLine.Options

/-! Arguments as groups: a flag with its value, a flag by itself, or a path. Every list of groups is
written in one way and read in one way. The commands that make reports accept what such a list
spells, with as many paths as they need, and what they understand depends on the groups only, not on
the places where flags stand. -/
namespace ApiSurface.CommandLine

/-- The two spellings of a flag that takes a value. -/
inductive Spelling
  | short
  | long
  deriving Repr, DecidableEq

namespace Spelling

def format : Spelling → String
  | short => "-f"
  | long => "--format"

def output : Spelling → String
  | short => "-o"
  | long => "--output"

theorem exists_iff {P : Spelling → Prop} : (∃ s, P s) ↔ P short ∨ P long := by
  constructor
  · rintro ⟨s, h⟩
    cases s with
    | short => exact .inl h
    | long => exact .inr h
  · rintro (h | h)
    · exact ⟨short, h⟩
    · exact ⟨long, h⟩

end Spelling

/-- Arguments that belong together. -/
inductive ArgumentGroup
  | format (spelling : Spelling) (f : Report.Format)
  | noColor
  | dedupe
  | output (spelling : Spelling) (place : Path)
  | path (place : Path) (h : isPath place)
  deriving DecidableEq

namespace ArgumentGroup

/-- The arguments of a group. -/
def words : ArgumentGroup → List String
  | format s f => [s.format, f.name]
  | noColor => ["--no-color"]
  | dedupe => ["--dedupe"]
  | output s p => [s.output, p]
  | path p _ => [p]

def format? : ArgumentGroup → Option Report.Format
  | format _ f => some f
  | _ => none

def output? : ArgumentGroup → Option Path
  | output _ p => some p
  | _ => none

def path? : ArgumentGroup → Option Path
  | path p _ => some p
  | _ => none

/-- The flag of a group that names an output. -/
def outputFlag? : ArgumentGroup → Option String
  | output s _ => some s.output
  | _ => none

theorem isSome_outputFlag? (g : ArgumentGroup) : g.outputFlag?.isSome = g.output?.isSome := by
  cases g <;> rfl

/-- How many arguments of a group are read as a report flag. -/
def reportWords : ArgumentGroup → ℕ
  | format .. => 2
  | noColor | dedupe => 1
  | output .. | path .. => 0

/-- Groups of which the last one counts. -/
def Rivals (g h : ArgumentGroup) : Prop :=
  (g.format?.isSome ∧ h.format?.isSome) ∨ (g.output?.isSome ∧ h.output?.isSome)

/-- What one group changes in the settings of a report. -/
def apply (s : ReportSettings) : ArgumentGroup → ReportSettings
  | format _ f => { s with format := f }
  | noColor => { s with color := false }
  | dedupe => { s with dedupe := true }
  | output .. | path .. => s

end ArgumentGroup

/-- The arguments of a list of groups. -/
def spelled (gs : List ArgumentGroup) : List String := gs.flatMap ArgumentGroup.words

def formats (gs : List ArgumentGroup) : List Report.Format := gs.filterMap ArgumentGroup.format?

def outputs (gs : List ArgumentGroup) : List Path := gs.filterMap ArgumentGroup.output?

def paths (gs : List ArgumentGroup) : List Path := gs.filterMap ArgumentGroup.path?

/-- The settings of a report over which some groups go: the last format counts, color may only be
switched off, and names on both sides are compared once if the settings or a group say so. -/
def reportOver (s : ReportSettings) (gs : List ArgumentGroup) : ReportSettings where
  dedupe := s.dedupe || decide (ArgumentGroup.dedupe ∈ gs)
  format := (formats gs).getLast?.getD s.format
  color := s.color && decide (ArgumentGroup.noColor ∉ gs)

/-- The output of a command: the last one that is named, or the place of the settings. -/
def outputOver (place : Path) (gs : List ArgumentGroup) : Path := (outputs gs).getLast?.getD place

@[simp] theorem spelled_nil : spelled [] = [] := rfl

@[simp] theorem spelled_cons (g : ArgumentGroup) (gs : List ArgumentGroup) :
    spelled (g :: gs) = g.words ++ spelled gs := rfl

@[simp] theorem paths_nil : paths [] = [] := rfl

@[simp] theorem paths_cons (g : ArgumentGroup) (gs : List ArgumentGroup) :
    paths (g :: gs) = g.path?.toList ++ paths gs := by
  cases g <;> rfl

@[simp] theorem outputs_cons (g : ArgumentGroup) (gs : List ArgumentGroup) :
    outputs (g :: gs) = g.output?.toList ++ outputs gs := by
  cases g <;> rfl

@[simp] theorem outputOver_nil (place : Path) : outputOver place [] = place := rfl

@[simp] theorem outputOver_cons (place : Path) (g : ArgumentGroup) (gs : List ArgumentGroup) :
    outputOver place (g :: gs) = outputOver (g.output?.getD place) gs := by
  cases g <;> simp [outputOver, ArgumentGroup.output?, List.getLast?_cons]

@[simp] theorem reportOver_nil (s : ReportSettings) : reportOver s [] = s := by
  simp [reportOver, formats]

/-- The groups go over the settings one by one. -/
@[simp] theorem reportOver_cons (s : ReportSettings) (g : ArgumentGroup) (gs : List ArgumentGroup) :
    reportOver s (g :: gs) = reportOver (g.apply s) gs := by
  cases g <;>
    simp [reportOver, formats, ArgumentGroup.format?, ArgumentGroup.apply, List.getLast?_cons]

/-! One flag. -/

theorem isPath_format (s : Spelling) : isPath s.format = false := by cases s <;> decide

theorem isPath_output (s : Spelling) : isPath s.output = false := by cases s <;> decide

theorem isFormatFlag_iff (argument : String) :
    isFormatFlag argument ↔ ∃ s : Spelling, argument = s.format := by
  simp [isFormatFlag, Spelling.exists_iff, Spelling.format]

theorem isOutputFlag_iff (argument : String) :
    isOutputFlag argument ↔ ∃ s : Spelling, argument = s.output := by
  simp [isOutputFlag, Spelling.exists_iff, Spelling.output]

theorem ofName?_eq_some_iff {word : String} {f : Report.Format} :
    Report.Format.ofName? word = some f ↔ word = f.name := by
  constructor
  · intro h
    have hname := List.find?_some (p := fun f : Report.Format => f.name = word) h
    exact (of_decide_eq_true hname).symm
  · rintro rfl
    exact Report.Format.ofName?_name f

/-- A group at the head of the arguments: its report flag is taken, other groups are left. -/
theorem reportFlag_words (s : ReportSettings) (g : ArgumentGroup) (rest : List String) :
    reportFlag s (g.words ++ rest) = .ok (g.apply s, g.reportWords) := by
  cases g with
  | format spelling f =>
    have h := (isFormatFlag_iff spelling.format).mpr ⟨spelling, rfl⟩
    simp [ArgumentGroup.words, reportFlag, h, ArgumentGroup.apply, ArgumentGroup.reportWords]
  | noColor => rfl
  | dedupe => rfl
  | output spelling place => cases spelling <;> rfl
  | path place h =>
    have hformat : isFormatFlag place = false := by
      by_contra hflag
      obtain ⟨spelling, rfl⟩ := (isFormatFlag_iff place).mp (by simpa using hflag)
      rw [isPath_format] at h
      cases h
    have hcolor : place ≠ "--no-color" := by
      rintro rfl
      exact absurd h (by decide)
    have hdedupe : place ≠ "--dedupe" := by
      rintro rfl
      exact absurd h (by decide)
    simp [ArgumentGroup.words, reportFlag, hformat, hcolor, hdedupe, ArgumentGroup.apply,
      ArgumentGroup.reportWords]

/-- What is taken at the head of the arguments is a group. -/
theorem reportFlag_eq_ok {s s' : ReportSettings} {argument : String} {rest : List String} {n : ℕ}
    (h : reportFlag s (argument :: rest) = .ok (s', n)) :
    (s' = s ∧ n = 0) ∨
      ∃ (g : ArgumentGroup) (k : ℕ), n = k + 1 ∧ g.path? = none ∧ g.output? = none ∧
        s' = g.apply s ∧ argument :: rest = g.words ++ rest.drop k := by
  simp only [reportFlag] at h
  split_ifs at h with hformat hcolor hdedupe
  · obtain ⟨spelling, rfl⟩ := (isFormatFlag_iff argument).mp hformat
    cases rest with
    | nil => cases h
    | cons word rest =>
      cases hname : Report.Format.ofName? word with
      | none => simp [hname] at h
      | some f =>
        simp only [hname, Except.ok.injEq, Prod.mk.injEq] at h
        obtain ⟨rfl, rfl⟩ := h
        obtain rfl := ofName?_eq_some_iff.mp hname
        exact .inr ⟨.format spelling f, 1, rfl, rfl, rfl, rfl, rfl⟩
  · obtain ⟨rfl, rfl⟩ := Prod.mk.inj (Except.ok.inj h)
    exact .inr ⟨.noColor, 0, rfl, rfl, rfl, rfl, by rw [hcolor]; rfl⟩
  · obtain ⟨rfl, rfl⟩ := Prod.mk.inj (Except.ok.inj h)
    exact .inr ⟨.dedupe, 0, rfl, rfl, rfl, rfl, by rw [hdedupe]; rfl⟩
  · obtain ⟨rfl, rfl⟩ := Prod.mk.inj (Except.ok.inj h)
    exact .inl ⟨rfl, rfl⟩

/-! The diff command. -/

section Diff

variable {s s' : ReportSettings} {ps : List Path} {argument : String} {rest : List String}

theorem readDiff_of_flag {n : ℕ} (h : reportFlag s (argument :: rest) = .ok (s', n + 1)) :
    readDiff s ps (argument :: rest) = readDiff s' ps (rest.drop n) := by
  rw [readDiff, h]

theorem readDiff_of_other (h : reportFlag s (argument :: rest) = .ok (s', 0)) :
    readDiff s ps (argument :: rest) =
      if isPath argument then readDiff s' (ps ++ [argument]) rest
      else .error (.unknownFlag argument) := by
  rw [readDiff, h]

/-- One group: its flag goes over the settings, its path behind the others, and a flag for an output
is refused. -/
theorem readDiff_words (s : ReportSettings) (ps : List Path) (g : ArgumentGroup)
    (rest : List String) :
    readDiff s ps (g.words ++ rest) =
      match g.outputFlag? with
      | some flag => .error (.unknownFlag flag)
      | none => readDiff (g.apply s) (ps ++ g.path?.toList) rest := by
  have hflag := reportFlag_words s g rest
  cases g with
  | format | noColor | dedupe =>
    simpa [ArgumentGroup.words, ArgumentGroup.outputFlag?, ArgumentGroup.path?]
      using readDiff_of_flag hflag
  | output spelling place =>
    have h : readDiff s ps (spelling.output :: place :: rest) = _ := readDiff_of_other hflag
    rwa [isPath_output] at h
  | path place h => exact (readDiff_of_other hflag).trans (if_pos h)

/-- All groups, one after the other. -/
theorem readDiff_spelled (s : ReportSettings) (ps : List Path) (gs : List ArgumentGroup) :
    readDiff s ps (spelled gs) =
      match gs.filterMap ArgumentGroup.outputFlag? with
      | flag :: _ => .error (.unknownFlag flag)
      | [] => readDiff (reportOver s gs) (ps ++ paths gs) [] := by
  induction gs generalizing s ps with
  | nil => simp
  | cons g gs ih =>
    rw [spelled_cons, readDiff_words, List.filterMap_cons]
    cases hflag : g.outputFlag? with
    | some flag => rfl
    | none => simp only [ih, reportOver_cons, paths_cons, List.append_assoc]

/-- Arguments that the diff command accepts are spelled by groups. -/
theorem exists_groups_of_readDiff {args : List String} {o : DiffOptions}
    (h : readDiff s ps args = .ok o) :
    ∃ gs, spelled gs = args ∧ outputs gs = [] ∧ ps ++ paths gs = [o.old, o.new] ∧
      o.report = reportOver s gs := by
  fun_induction readDiff s ps args with
  | case1 s old new =>
    cases h
    exact ⟨[], rfl, rfl, rfl, (reportOver_nil s).symm⟩
  | case2 => cases h
  | case3 => cases h
  | case4 s ps argument rest s' hflag hpath ih =>
    obtain ⟨gs, rfl, hout, hps, hreport⟩ := ih h
    obtain ⟨rfl, -⟩ | ⟨g, k, hk, -⟩ := reportFlag_eq_ok hflag
    · exact ⟨.path argument hpath :: gs, rfl, hout, by simpa [ArgumentGroup.path?] using hps,
        by simpa [ArgumentGroup.apply] using hreport⟩
    · cases hk
  | case5 => cases h
  | case6 s ps argument rest s' used hflag ih =>
    obtain ⟨gs, hargs, hout, hps, hreport⟩ := ih h
    obtain ⟨-, hzero⟩ | ⟨g, k, hk, hpath, hgout, rfl, hwords⟩ := reportFlag_eq_ok hflag
    · cases hzero
    · cases hk
      exact ⟨g :: gs, by rw [spelled_cons, hargs, hwords], by simpa [hgout] using hout,
        by simpa [hpath] using hps, by rwa [reportOver_cons]⟩

end Diff

/-! The changelog command. -/

section Changelog

variable {s s' : ReportSettings} {input : Option Path} {place : Path} {argument : String}
  {rest : List String}

theorem readChangelog_of_flag {n : ℕ} (h : reportFlag s (argument :: rest) = .ok (s', n + 1)) :
    readChangelog s input place (argument :: rest) =
      readChangelog s' input place (rest.drop n) := by
  rw [readChangelog, h]

theorem readChangelog_of_output {p : Path} (h : reportFlag s (argument :: p :: rest) = .ok (s', 0))
    (ho : isOutputFlag argument) :
    readChangelog s input place (argument :: p :: rest) = readChangelog s' input p rest := by
  rw [readChangelog, h]
  exact if_pos ho

theorem readChangelog_of_other (h : reportFlag s (argument :: rest) = .ok (s', 0))
    (ho : isOutputFlag argument = false) :
    readChangelog s input place (argument :: rest) =
      if isPath argument && input.isNone then readChangelog s' (some argument) place rest
      else .error (.unknownArgument argument) := by
  rw [readChangelog, h]
  exact if_neg (by simp [ho])

theorem not_isOutputFlag_of_isPath (h : isPath argument) : isOutputFlag argument = false := by
  by_contra hflag
  obtain ⟨spelling, rfl⟩ := (isOutputFlag_iff argument).mp (by simpa using hflag)
  rw [isPath_output] at h
  cases h

/-- One group: its flag goes over the settings, its output over the one before, and a path is taken
if there is none yet. -/
theorem readChangelog_words (s : ReportSettings) (input : Option Path) (place : Path)
    (g : ArgumentGroup) (rest : List String) :
    readChangelog s input place (g.words ++ rest) =
      match input, g.path? with
      | some _, some p => .error (.unknownArgument p)
      | input, p => readChangelog (g.apply s) (input.or p) (g.output?.getD place) rest := by
  have hflag := reportFlag_words s g rest
  cases g with
  | format | noColor | dedupe =>
    simpa [ArgumentGroup.words, ArgumentGroup.path?, ArgumentGroup.output?]
      using readChangelog_of_flag hflag
  | output spelling p =>
    have ho := (isOutputFlag_iff spelling.output).mpr ⟨spelling, rfl⟩
    simpa [ArgumentGroup.words, ArgumentGroup.path?, ArgumentGroup.output?]
      using readChangelog_of_output hflag ho
  | path p h =>
    have hstep : readChangelog s input place (p :: rest) = _ :=
      readChangelog_of_other hflag (not_isOutputFlag_of_isPath h)
    cases input with
    | none => simpa [ArgumentGroup.words, ArgumentGroup.path?, ArgumentGroup.output?, h] using hstep
    | some q => simpa [ArgumentGroup.words, ArgumentGroup.path?, h] using hstep

/-- All groups, one after the other. -/
theorem readChangelog_spelled (s : ReportSettings) (input : Option Path) (place : Path)
    (gs : List ArgumentGroup) :
    readChangelog s input place (spelled gs) =
      match input.toList ++ paths gs with
      | _ :: q :: _ => .error (.unknownArgument q)
      | ps => readChangelog (reportOver s gs) ps.head? (outputOver place gs) [] := by
  induction gs generalizing s input place with
  | nil => cases input <;> simp
  | cons g gs ih =>
    rw [spelled_cons, readChangelog_words, paths_cons, reportOver_cons, outputOver_cons]
    cases hpath : g.path? with
    | none => cases input <;> simp [ih]
    | some p => cases input <;> simp [ih]

/-- Arguments that the changelog command accepts are spelled by groups. -/
theorem exists_groups_of_readChangelog {args : List String} {o : ChangelogOptions}
    (h : readChangelog s input place args = .ok o) :
    ∃ gs, spelled gs = args ∧ input.toList ++ paths gs = [o.input] ∧
      o.output = outputOver place gs ∧ o.report = reportOver s gs := by
  fun_induction readChangelog s input place args with
  | case1 s place p =>
    cases h
    exact ⟨[], rfl, rfl, rfl, (reportOver_nil s).symm⟩
  | case2 => cases h
  | case3 => cases h
  | case4 s input place argument rest s' used hflag ih =>
    obtain ⟨gs, hargs, hps, hout, hreport⟩ := ih h
    obtain ⟨-, hzero⟩ | ⟨g, k, hk, hpath, hgout, rfl, hwords⟩ := reportFlag_eq_ok hflag
    · cases hzero
    · cases hk
      exact ⟨g :: gs, by rw [spelled_cons, hargs, hwords], by simpa [hpath] using hps,
        by simpa [hgout] using hout, by rwa [reportOver_cons]⟩
  | case5 => cases h
  | case6 s input place argument s' ho p rest hflag ih =>
    obtain ⟨gs, rfl, hps, hout, hreport⟩ := ih h
    obtain ⟨spelling, rfl⟩ := (isOutputFlag_iff argument).mp ho
    obtain ⟨rfl, -⟩ | ⟨g, k, hk, -⟩ := reportFlag_eq_ok hflag
    · exact ⟨.output spelling p :: gs, rfl, hps, by simpa [ArgumentGroup.output?] using hout,
        by simpa [ArgumentGroup.apply] using hreport⟩
    · cases hk
  | case7 s input place argument rest s' hflag ho hpath ih =>
    obtain ⟨gs, rfl, hps, hout, hreport⟩ := ih h
    obtain ⟨hargument, hinput⟩ := Bool.and_eq_true_iff.mp hpath
    obtain rfl := Option.isNone_iff_eq_none.mp hinput
    obtain ⟨rfl, -⟩ | ⟨g, k, hk, -⟩ := reportFlag_eq_ok hflag
    · exact ⟨.path argument hargument :: gs, rfl, hps, by simpa [ArgumentGroup.output?] using hout,
        by simpa [ArgumentGroup.apply] using hreport⟩
    · cases hk
  | case8 => cases h

end Changelog

/-! Groups in other places. -/

namespace ArgumentGroup

/-- The group at the head of some arguments. -/
def first? : List String → Option (ArgumentGroup × List String)
  | [] => none
  | argument :: rest =>
    if h : isPath argument then some (path argument h, rest)
    else match argument, rest with
      | "-f", word :: rest => (Report.Format.ofName? word).map fun f => (format .short f, rest)
      | "--format", word :: rest => (Report.Format.ofName? word).map fun f => (format .long f, rest)
      | "--no-color", rest => some (noColor, rest)
      | "--dedupe", rest => some (dedupe, rest)
      | "-o", p :: rest => some (output .short p, rest)
      | "--output", p :: rest => some (output .long p, rest)
      | _, _ => none

theorem first?_words (g : ArgumentGroup) (rest : List String) :
    first? (g.words ++ rest) = some (g, rest) := by
  cases g with
  | format spelling f => cases spelling <;> cases f <;> rfl
  | noColor => rfl
  | dedupe => rfl
  | output spelling p => cases spelling <;> rfl
  | path p h => simp [words, first?, h]

end ArgumentGroup

/-- Arguments split into groups in one way only. -/
theorem spelled_injective : Function.Injective spelled := by
  intro gs hs h
  induction gs generalizing hs with
  | nil =>
    cases hs with
    | nil => rfl
    | cons g hs => cases g <;> cases h
  | cons g gs ih =>
    cases hs with
    | nil => cases g <;> cases h
    | cons g' hs =>
      have hfirst := congrArg ArgumentGroup.first? h
      rw [spelled_cons, spelled_cons, ArgumentGroup.first?_words,
        ArgumentGroup.first?_words] at hfirst
      obtain ⟨rfl, hrest⟩ := Prod.mk.inj (Option.some.inj hfirst)
      rw [ih hrest]

/-- A group that some others do not hold the like of may stand in front of them or behind them. -/
theorem filterMap_move {β : Type} (f : ArgumentGroup → Option β) {g : ArgumentGroup}
    {between : List ArgumentGroup} (h : (f g).isSome → ∀ x ∈ between, f x = none)
    (before after : List ArgumentGroup) :
    (before ++ g :: between ++ after).filterMap f =
      (before ++ between ++ g :: after).filterMap f := by
  cases hf : f g with
  | none => simp [hf]
  | some b =>
    have hbetween : between.filterMap f = [] :=
      List.filterMap_eq_nil_iff.mpr (h (by rw [hf]; rfl))
    simp [hf, hbetween]

section Move

variable {g : ArgumentGroup} {between : List ArgumentGroup}
  (hrivals : ∀ x ∈ between, ¬ g.Rivals x) (before after : List ArgumentGroup)
include hrivals

theorem reportOver_move (s : ReportSettings) :
    reportOver s (before ++ g :: between ++ after) =
      reportOver s (before ++ between ++ g :: after) := by
  have hformats : formats (before ++ g :: between ++ after) =
      formats (before ++ between ++ g :: after) := by
    refine filterMap_move _ (fun hg x hx => ?_) before after
    exact Option.not_isSome_iff_eq_none.mp fun hsome => hrivals x hx (.inl ⟨hg, hsome⟩)
  have hmem (x : ArgumentGroup) : x ∈ before ++ g :: between ++ after ↔
      x ∈ before ++ between ++ g :: after := by
    simp only [List.mem_append, List.mem_cons]
    tauto
  simp only [reportOver, hformats, hmem]

theorem outputs_move : outputs (before ++ g :: between ++ after) =
    outputs (before ++ between ++ g :: after) := by
  refine filterMap_move _ (fun hg x hx => ?_) before after
  exact Option.not_isSome_iff_eq_none.mp fun hsome => hrivals x hx (.inr ⟨hg, hsome⟩)

theorem outputFlags_move : (before ++ g :: between ++ after).filterMap ArgumentGroup.outputFlag? =
    (before ++ between ++ g :: after).filterMap ArgumentGroup.outputFlag? := by
  refine filterMap_move _ (fun hg x hx => ?_) before after
  rw [ArgumentGroup.isSome_outputFlag?] at hg
  rw [← Option.not_isSome_iff_eq_none, ArgumentGroup.isSome_outputFlag?]
  exact fun hsome => hrivals x hx (.inr ⟨hg, hsome⟩)

end Move

/-- What the diff command understands of groups. -/
theorem parse_diff_eq_ok_iff (s : Settings) (gs : List ArgumentGroup) (o : DiffOptions) :
    DiffOptions.parse s (spelled gs) = .ok o ↔
      outputs gs = [] ∧ paths gs = [o.old, o.new] ∧ o.report = reportOver s.report gs := by
  constructor
  · intro h
    obtain ⟨gs', hgs, hout, hps, hreport⟩ := exists_groups_of_readDiff h
    obtain rfl := spelled_injective hgs
    exact ⟨hout, hps, hreport⟩
  · rintro ⟨hout, hps, hreport⟩
    have hflags : gs.filterMap ArgumentGroup.outputFlag? = [] := by
      refine List.filterMap_eq_nil_iff.mpr fun g hg => ?_
      rw [← Option.not_isSome_iff_eq_none, ArgumentGroup.isSome_outputFlag?,
        Option.not_isSome_iff_eq_none]
      exact List.filterMap_eq_nil_iff.mp hout g hg
    have hend : readDiff (reportOver s.report gs) [o.old, o.new] [] = .ok o := by
      rw [readDiff, ← hreport]
    rw [DiffOptions.parse, readDiff_spelled, hflags, hps]
    exact hend

/-- What the changelog command understands of groups. -/
theorem parse_changelog_eq_ok_iff (s : Settings) (gs : List ArgumentGroup)
    (o : ChangelogOptions) :
    ChangelogOptions.parse s (spelled gs) = .ok o ↔
      paths gs = [o.input] ∧ o.output = outputOver s.directory gs ∧
        o.report = reportOver s.report gs := by
  constructor
  · intro h
    obtain ⟨gs', hgs, hps, hout, hreport⟩ := exists_groups_of_readChangelog h
    obtain rfl := spelled_injective hgs
    exact ⟨hps, hout, hreport⟩
  · rintro ⟨hps, hout, hreport⟩
    have hend : readChangelog (reportOver s.report gs) (some o.input)
        (outputOver s.directory gs) [] = .ok o := by
      rw [readChangelog, ← hreport, ← hout]
    rw [ChangelogOptions.parse, readChangelog_spelled, hps]
    exact hend

/-- What the diff command accepts is spelled by groups. -/
theorem exists_parse_diff_iff (s : Settings) (args : List String) :
    (∃ o, DiffOptions.parse s args = .ok o) ↔
      ∃ gs, spelled gs = args ∧ outputs gs = [] ∧ (paths gs).length = 2 := by
  constructor
  · rintro ⟨o, h⟩
    obtain ⟨gs, hgs, hout, hps, -⟩ := exists_groups_of_readDiff h
    have hpaths : paths gs = [o.old, o.new] := hps
    exact ⟨gs, hgs, hout, by rw [hpaths]; rfl⟩
  · rintro ⟨gs, rfl, hout, hlength⟩
    obtain ⟨old, new, hps⟩ := List.length_eq_two.mp hlength
    exact ⟨⟨old, new, reportOver s.report gs⟩,
      (parse_diff_eq_ok_iff s gs _).mpr ⟨hout, hps, rfl⟩⟩

/-- What the changelog command accepts is spelled by groups. -/
theorem exists_parse_changelog_iff (s : Settings) (args : List String) :
    (∃ o, ChangelogOptions.parse s args = .ok o) ↔
      ∃ gs, spelled gs = args ∧ (paths gs).length = 1 := by
  constructor
  · rintro ⟨o, h⟩
    obtain ⟨gs, hgs, hps, -⟩ := exists_groups_of_readChangelog h
    have hpaths : paths gs = [o.input] := hps
    exact ⟨gs, hgs, by rw [hpaths]; rfl⟩
  · rintro ⟨gs, rfl, hlength⟩
    obtain ⟨input, hps⟩ := List.length_eq_one_iff.mp hlength
    exact ⟨⟨input, outputOver s.directory gs, reportOver s.report gs⟩,
      (parse_changelog_eq_ok_iff s gs _).mpr ⟨hps, rfl, rfl⟩⟩

/-- The two commands accept exactly the arguments that split into groups with as many paths as they
need, and with an output only if it is the changelog command. The split is unique. The last format
and the last output count, color is on if the settings have it on and no group switches it off,
names on both sides are compared once if the settings or a group say so, and paths keep their order.
So a flag may stand anywhere between the groups, if only it passes no other format or output. -/
theorem parse_groups (s : Settings) :
    ((∀ args, (∃ o, DiffOptions.parse s args = .ok o) ↔
        ∃ gs, spelled gs = args ∧ outputs gs = [] ∧ (paths gs).length = 2) ∧
      ∀ args, (∃ o, ChangelogOptions.parse s args = .ok o) ↔
        ∃ gs, spelled gs = args ∧ (paths gs).length = 1) ∧
    Function.Injective spelled ∧
    ((∀ gs o, DiffOptions.parse s (spelled gs) = .ok o ↔
        outputs gs = [] ∧ paths gs = [o.old, o.new] ∧ o.report = reportOver s.report gs) ∧
      ∀ gs o, ChangelogOptions.parse s (spelled gs) = .ok o ↔
        paths gs = [o.input] ∧ o.output = outputOver s.directory gs ∧
          o.report = reportOver s.report gs) ∧
    ∀ (before : List ArgumentGroup) (g : ArgumentGroup) (between after : List ArgumentGroup),
      g.path? = none → (∀ x ∈ between, ¬ g.Rivals x) →
        DiffOptions.parse s (spelled (before ++ g :: between ++ after)) =
            DiffOptions.parse s (spelled (before ++ between ++ g :: after)) ∧
          ChangelogOptions.parse s (spelled (before ++ g :: between ++ after)) =
            ChangelogOptions.parse s (spelled (before ++ between ++ g :: after)) := by
  refine ⟨⟨exists_parse_diff_iff s, exists_parse_changelog_iff s⟩, spelled_injective,
    ⟨parse_diff_eq_ok_iff s, parse_changelog_eq_ok_iff s⟩, ?_⟩
  intro before g between after hpath hrivals
  have hpaths : paths (before ++ g :: between ++ after) = paths (before ++ between ++ g :: after) :=
    filterMap_move _ (fun hg => by rw [hpath] at hg; cases hg) before after
  have hreport := reportOver_move hrivals before after s.report
  constructor
  · rw [DiffOptions.parse, DiffOptions.parse, readDiff_spelled, readDiff_spelled,
      outputFlags_move hrivals, hpaths, hreport]
  · rw [ChangelogOptions.parse, ChangelogOptions.parse, readChangelog_spelled,
      readChangelog_spelled, hpaths, hreport, outputOver, outputOver, outputs_move hrivals]

/-- A format that is named between two paths may as well stand behind them. -/
theorem parse_groups_moved :
    let s : Settings := {}
    let old := ArgumentGroup.path "old.json" (by decide)
    let json := ArgumentGroup.format .short .json
    let between := [ArgumentGroup.path "new.json" (by decide), .noColor]
    (json.path? = none ∧ ∀ x ∈ between, ¬ json.Rivals x) ∧
      DiffOptions.parse s ["old.json", "-f", "json", "new.json", "--no-color"] =
        DiffOptions.parse s ["old.json", "new.json", "--no-color", "-f", "json"] ∧
      DiffOptions.parse s (spelled ([old] ++ json :: between ++ [])) =
        .ok ⟨"old.json", "new.json", { s.report with format := .json, color := false }⟩ := by
  intro s old json between
  have hrivals : ∀ x ∈ between, ¬ json.Rivals x := by
    simp [between, json, ArgumentGroup.Rivals, ArgumentGroup.format?, ArgumentGroup.output?]
  obtain ⟨-, -, ⟨hdiff, -⟩, hmove⟩ := parse_groups s
  refine ⟨⟨rfl, hrivals⟩, (hmove [old] json between [] rfl hrivals).1, ?_⟩
  exact (hdiff _ _).mpr ⟨rfl, rfl, rfl⟩

end ApiSurface.CommandLine
