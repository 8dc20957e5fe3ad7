import Mathlib.Data.List.TakeWhile
import Mathlib.Tactic.SplitIfs
import ApiSurface.CommandLine.Changelog
import ApiSurface.Proofs.Entries

/-! Color codes in text reports. A writer without color shows a report as it is put together as a
plain text, and a writer with color shows the same text with codes in it, as long as the changes
have none of their own. So the report of a comparison on a terminal and the one in a file agree. -/
namespace ApiSurface
namespace Report.Terminal

/-! Texts without their codes. -/

/-- The character that opens a code. -/
def escape : Char := '\x1b'

/-- The rest of a text that opens with a code: behind the escape character and a bracket a code has
digits and semicolons, and it ends with an `m`. -/
def behindCode? : List Char → Option (List Char)
  | '\x1b' :: '[' :: cs =>
    match cs.dropWhile fun c => c.isDigit || c = ';' with
    | 'm' :: rest => some rest
    | _ => none
  | _ => none

theorem length_behindCode? {cs rest : List Char} (h : behindCode? cs = some rest) :
    rest.length < cs.length := by
  unfold behindCode? at h
  split at h
  · next ds =>
    have hdrop := List.length_dropWhile_le (fun c => c.isDigit || c = ';') ds
    split at h
    · next heq =>
      cases h
      rw [heq] at hdrop
      simp only [List.length_cons] at hdrop ⊢
      omega
    · cases h
  · cases h

/-- A text without the codes in it. -/
def withoutCodes : List Char → List Char
  | [] => []
  | c :: cs =>
    match _h : behindCode? (c :: cs) with
    | some rest => withoutCodes rest
    | none => c :: withoutCodes cs
termination_by cs => cs.length
decreasing_by
  · exact length_behindCode? _h
  · exact Nat.lt_succ_self _

theorem withoutCodes_of_behindCode? {cs rest : List Char} (h : behindCode? cs = some rest) :
    withoutCodes cs = withoutCodes rest := by
  cases cs with
  | nil => cases h
  | cons c cs =>
    rw [withoutCodes]
    split
    · next heq => rw [Option.some.inj (heq.symm.trans h)]
    · next heq => cases heq.symm.trans h

/-- Text without an escape character is kept. -/
theorem withoutCodes_append {xs : List Char} (h : escape ∉ xs) (ys : List Char) :
    withoutCodes (xs ++ ys) = xs ++ withoutCodes ys := by
  induction xs with
  | nil => rfl
  | cons c cs ih =>
    obtain ⟨hc, hcs⟩ := not_or.mp (mt List.mem_cons.mpr h)
    have hnone : behindCode? (c :: (cs ++ ys)) = none := by
      unfold behindCode?
      split
      · next heq => exact absurd (List.cons.inj heq).1.symm hc
      · rfl
    rw [List.cons_append, withoutCodes]
    split
    · next heq => cases heq.symm.trans hnone
    · rw [ih hcs, List.cons_append]

theorem withoutCodes_eq_self {xs : List Char} (h : escape ∉ xs) : withoutCodes xs = xs := by
  simpa [withoutCodes] using withoutCodes_append h []

/-! Texts that are put into a report. -/

theorem start_removed (ink : Ink) (rest : List Char) :
    withoutCodes ((Writer.ansi.start ink).toList ++ rest) = withoutCodes rest := by
  have hreset (cs : List Char) : withoutCodes ("\x1b[0m".toList ++ cs) = withoutCodes cs :=
    withoutCodes_of_behindCode? rfl
  have hink : withoutCodes ("\x1b[".toList ++ (ink.code.toList ++ 'm' :: rest)) =
      withoutCodes rest := by
    cases ink <;> exact withoutCodes_of_behindCode? rfl
  have htext : (Writer.ansi.start ink).toList ++ rest =
      "\x1b[0m".toList ++ ("\x1b[".toList ++ (ink.code.toList ++ 'm' :: rest)) := by
    cases ink <;> rfl
  rw [htext, hreset, hink]

/-- Painted text is kept without its paint. -/
theorem paint_removed (ink : Ink) {s : String} (h : escape ∉ s.toList) (rest : List Char) :
    withoutCodes ((Writer.ansi.paint ink s).toList ++ rest) = s.toList ++ withoutCodes rest := by
  have hfinish : withoutCodes (Writer.ansi.finish.toList ++ rest) = withoutCodes rest :=
    withoutCodes_of_behindCode? rfl
  simp only [Writer.paint, String.toList_append, List.append_assoc]
  rw [start_removed, withoutCodes_append h, hfinish]

theorem line_removed {c : Change} (h : escape ∉ c.display.toList) (rest : List Char) :
    withoutCodes ((Writer.ansi.line c).toList ++ rest) =
      (c.display ++ "\n").toList ++ withoutCodes rest := by
  have hbreak (cs : List Char) :
      withoutCodes ("\n".toList ++ cs) = "\n".toList ++ withoutCodes cs :=
    withoutCodes_append (by decide) cs
  cases c with
  | separator => exact hbreak rest
  | _ =>
    simp only [Writer.line, ink?, String.toList_append, List.append_assoc]
    rw [paint_removed _ h, hbreak]

theorem lines_removed {cs : List Change} (h : ∀ c ∈ cs, escape ∉ c.display.toList)
    (rest : List Char) :
    withoutCodes ((String.join (cs.map Writer.ansi.line)).toList ++ rest) =
      (lines cs).toList ++ withoutCodes rest := by
  induction cs with
  | nil => rfl
  | cons c cs ih =>
    obtain ⟨hc, hcs⟩ := List.forall_mem_cons.mp h
    unfold lines at ih ⊢
    rw [List.map_cons, List.map_cons, String.join_cons, String.join_cons, String.toList_append,
      String.toList_append, List.append_assoc, List.append_assoc, line_removed hc, ih hcs]

end Report.Terminal

namespace Change

/-- The texts that the line of a change shows. -/
def texts (c : Change) : List String := c.detail :: (c.old?.toList ++ c.new?.toList)

theorem not_mem_display {c : Change} {d : Char} (hd : d ∉ "+-! >".toList)
    (h : ∀ s ∈ c.texts, d ∉ s.toList) : d ∉ c.display.toList := by
  have hd : ¬ d = '+' ∧ ¬ d = '-' ∧ ¬ d = '!' ∧ ¬ d = ' ' ∧ ¬ d = '>' := by simpa using hd
  cases c <;> simp_all [texts, detail, old?, new?, display, sign, valueText]

namespace Summary

/-- The count of the changes has no control character. -/
theorem le_toNat_of_mem_display {s : Summary} {d : Char} (hd : d ∈ s.display.toList) :
    32 ≤ d.toNat := by
  have hnumber (n : Nat) (h : d ∈ (toString n).toList) : 32 ≤ d.toNat := by
    rw [Nat.toString_eq_ofList_toDigits, String.toList_ofList] at h
    have hdigit := Nat.isDigit_of_mem_toDigits (by decide) (by decide) h
    simp only [Char.isDigit, Bool.and_eq_true, decide_eq_true_eq, UInt32.le_iff_toNat_le] at hdigit
    exact Nat.le_trans (by decide) hdigit.1
  have hword (w : String) (hw : w.toList.all (32 ≤ ·.toNat) = true) (h : d ∈ w.toList) :
      32 ≤ d.toNat := of_decide_eq_true (List.all_eq_true.mp hw d h)
  simp only [display, String.toList_append, List.mem_append] at hd
  obtain ((((h | h) | h) | h) | h) | h := hd
  · exact hnumber _ h
  · exact hword _ (by decide) h
  · exact hnumber _ h
  · exact hword _ (by decide) h
  · exact hnumber _ h
  · exact hword _ (by decide) h

end Summary
end Change

/-! Reports. -/

namespace Report.Terminal

/-- No text in the changes has an escape character in it. -/
def EscapeFree (cs : List Change) : Prop := ∀ c ∈ cs, ∀ s ∈ c.texts, escape ∉ s.toList

instance (cs : List Change) : Decidable (EscapeFree cs) :=
  inferInstanceAs (Decidable (∀ c ∈ cs, ∀ s ∈ c.texts, escape ∉ s.toList))

theorem colorless_paint (ink : Ink) (s : String) : Writer.colorless.paint ink s = s := by
  simp [Writer.paint, Writer.colorless]

theorem colorless_line (c : Change) : Writer.colorless.line c = c.display ++ "\n" := by
  cases c with
  | separator => rfl
  | _ => simp only [Writer.line, ink?, colorless_paint]

/-- A writer without color shows the plain text. -/
theorem colorless_report (cs : List Change) : Writer.colorless.report cs = plain cs := by
  rw [Writer.report, plain, lines, colorless_paint, List.map_congr_left fun c _ => colorless_line c]

/-- Without its codes a report in color is the plain text. -/
theorem withoutCodes_colored {cs : List Change} (h : EscapeFree cs) :
    withoutCodes (colored cs).toList = (plain cs).toList := by
  have hsigns : escape ∉ "+-! >".toList := by decide
  have hlines : ∀ c ∈ cs, escape ∉ c.display.toList := fun c hc =>
    Change.not_mem_display hsigns (h c hc)
  have hcount : escape ∉ (Change.Summary.ofList cs).display.toList := fun hmem =>
    absurd (Change.Summary.le_toNat_of_mem_display hmem) (by decide)
  have hbreak : withoutCodes "\n".toList = "\n".toList := withoutCodes_eq_self (by decide)
  simp only [colored, plain, Writer.report, String.toList_append, List.append_assoc]
  rw [lines_removed hlines, paint_removed _ hcount, hbreak]

end Report.Terminal

namespace CommandLine

open Report.Terminal

/-- The text report on a list of changes is what a writer without color shows of it, and a report in
color is the same text once its codes are taken out, unless the changes have escape characters of
their own. So a comparison on the terminal, in color or not, and the report on two releases in a
file do not disagree. -/
theorem text_reports_agree (cs : List Change) (title : String)
    (versions : Option (String × String)) :
    Report.render cs .text title versions = Writer.colorless.report cs ∧
      (EscapeFree cs → withoutCodes (colored cs).toList =
        (Report.render cs .text title versions).toList) ∧
      ∀ (o : DiffOptions) (s : ReportSettings) (old new : String × Structure),
        o.report.format = .text → s.format = .text → s.dedupe = o.report.dedupe →
        (o.report.color = false → diffReport o old.2 new.2 = releaseReport s old new) ∧
          (o.report.color = true → EscapeFree (Comparison.compare s.dedupe old.2 new.2) →
            withoutCodes (diffReport o old.2 new.2).toList =
              (releaseReport s old new).toList) := by
  refine ⟨(colorless_report cs).symm, withoutCodes_colored, fun o s old new ho hs hdedupe => ?_⟩
  have hfile : releaseReport s old new = plain (Comparison.compare s.dedupe old.2 new.2) := by
    rw [releaseReport, hs]
    rfl
  have hterminal : diffReport o old.2 new.2 =
      if o.report.color then colored (Comparison.compare s.dedupe old.2 new.2)
      else plain (Comparison.compare s.dedupe old.2 new.2) := by
    simp only [diffReport, ho, hdedupe, colorless_report]
  rw [hterminal, hfile]
  refine ⟨fun hcolor => by rw [hcolor]; rfl, fun hcolor hfree => ?_⟩
  rw [hcolor, if_pos rfl, withoutCodes_colored hfree]

/-- A type that looks like a code, and a class that is gone. -/
theorem text_reports_agree_bracket :
    let cs := [.changed "A" "" "A.x: [m" "A.x: [0m", .separator, .removed "B" "d " "class B"]
    let old : Structure := [.property "x" "[0m"]
    (EscapeFree cs ∧ EscapeFree (Comparison.compare true old [])) ∧
      withoutCodes (colored cs).toList = (Report.render cs .text "" none).toList ∧
      withoutCodes (diffReport ⟨"1.json", "2.json", ⟨true, .text, true⟩⟩ old []).toList =
        (releaseReport ⟨true, .text, false⟩ ("1", old) ("2", [])).toList := by
  intro cs old
  have hfree : EscapeFree cs := by decide
  have hcompare : Comparison.compare true old [] = [.removed "x" "" "x: [0m"] := by
    show Comparison.compareEntries true (some ⟨.property "x" "[0m", none⟩) none ++ [] = _
    rw [Comparison.compareEntries_eq]
    decide
  have hfree' : EscapeFree (Comparison.compare true old []) := by
    rw [hcompare]
    decide
  obtain ⟨-, hcolored, -⟩ := text_reports_agree cs "" none
  obtain ⟨-, -, hcommands⟩ := text_reports_agree [] "" none
  exact ⟨⟨hfree, hfree'⟩, hcolored hfree, (hcommands ⟨"1.json", "2.json", ⟨true, .text, true⟩⟩
    ⟨true, .text, false⟩ ("1", old) ("2", []) rfl rfl rfl).2 rfl hfree'⟩

end CommandLine
end ApiSurface
