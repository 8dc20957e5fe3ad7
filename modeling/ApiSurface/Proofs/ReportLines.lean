import ApiSurface.Proofs.ColorCodes
import ApiSurface.Proofs.Concatenation
import ApiSurface.Proofs.Entries
import ApiSurface.Proofs.EnumDifference
import ApiSurface.Proofs.ShownWords

/-! Lines of text reports. A report has a line for each change and one for their count exactly if no
change shows a line feed. Texts are shown as they are, so a line feed that an escape in a source
stands for breaks the line of its change. -/
namespace ApiSurface

/-! Records without line feeds. -/

namespace Declaration

variable {d : Declaration}

theorem oneLine_name (h : AllOneLine d.texts) : OneLine d.name := by
  cases d <;> exact h _ List.mem_cons_self

theorem oneLine_fragment (h : AllOneLine d.texts) : OneLine d.fragment := by
  have htype : OneLine (d.type?.getD "void") := by
    cases d with
    | property n t | parameter n t | typeAlias n t =>
      exact h t (List.mem_cons_of_mem _ List.mem_cons_self)
    | _ => exact (by decide : OneLine "void")
  simp +decide [fragment, oneLine_name h, htype]

theorem allOneLine_members (h : AllOneLine d.texts) : ∀ m ∈ d.members, AllOneLine m.texts := by
  cases d with
  | classType n ms s | interface n ms s =>
    obtain ⟨-, hrest⟩ := List.forall_mem_cons.mp h
    exact allOneLine_listTexts.mp (List.forall_mem_append.mp hrest).2
  | _ => exact nofun

theorem allOneLine_values (h : AllOneLine d.texts) : AllOneLine d.values := by
  cases d with
  | enumeration n vs => exact (List.forall_mem_cons.mp h).2
  | _ => exact nofun

end Declaration

/-- An entry whose texts have no line feed. -/
structure Linked.Unbroken (l : Linked) : Prop where
  declaration : AllOneLine l.declaration.texts
  parent : AllOneLine l.parent.toList

namespace Linked

theorem Unbroken.member {l m : Linked} (h : l.Unbroken) {n : String} (hm : m ∈ l.member? n) :
    m.Unbroken := by
  obtain ⟨d, hd, rfl⟩ := Option.map_eq_some_iff.mp hm
  exact ⟨Declaration.allOneLine_members h.declaration d (Declaration.mem_of_lastNamed? hd),
    List.forall_mem_singleton.mpr (Declaration.oneLine_name h.declaration)⟩

theorem Unbroken.oneLine_display {l : Linked} (h : l.Unbroken) : OneLine l.display := by
  obtain ⟨d, parent⟩ := l
  obtain ⟨hd, hparent⟩ := h
  have hname := Declaration.oneLine_name hd
  have hqualifier : OneLine (Linked.qualifier ⟨d, parent⟩) := by
    cases parent with
    | none => exact (by decide : OneLine "")
    | some p => simp +decide [qualifier, hparent p List.mem_cons_self]
  have hparameters {ps : List Declaration} (hps : AllOneLine (Declaration.listTexts ps)) :
      OneLine (Declaration.parameterList ps) :=
    .intercalate (by decide) (List.forall_mem_map.mpr fun p hp =>
      Declaration.oneLine_fragment (Declaration.allOneLine_listTexts.mp hps p hp))
  cases d with
  | enumeration | classType | interface => exact oneLine_append.mpr ⟨by decide, hname⟩
  | method n ps r =>
    obtain ⟨hn, hrest⟩ := List.forall_mem_cons.mp hd
    obtain ⟨hr, hps⟩ := List.forall_mem_append.mp hrest
    cases r with
    | none => simp +decide [Linked.display, hqualifier, hn, hparameters hps]
    | some r =>
      have hresult := hr r List.mem_cons_self
      simp +decide [Linked.display, hqualifier, hn, hparameters hps, hresult]
  | property n t | parameter n t | typeAlias n t =>
    obtain ⟨hn, ht⟩ := List.forall_mem_cons.mp hd
    have htype := ht t List.mem_cons_self
    simp +decide [Linked.display, hqualifier, hn, htype]

end Linked

namespace Comparison

/-! Every record shows names, values and types of the declarations that are compared. -/

/-- Records that show no line feed. -/
abbrev Unbroken (cs : List Change) : Prop := ∀ c ∈ cs, AllOneLine c.texts

theorem unbroken_compareEnumValues {oldName newName : String} (hold : OneLine oldName)
    (hnew : OneLine newName) {old new : List String} (ho : AllOneLine old)
    (hn : AllOneLine new) : Unbroken (compareEnumValues oldName old newName new) := by
  have hvalue {e v : String} (he : OneLine e) (hv : OneLine v) : OneLine (enumValue e v) := by
    simp +decide [enumValue, he, hv]
  have hdropped : AllOneLine
      ((Edit.align (Declaration.sorted old) (Declaration.sorted new)).flatMap Edit.dropped) := by
    intro v hv
    refine ho v (Multiset.mem_coe.mp ?_)
    rw [← Declaration.coe_sorted old, ← Edit.flatMap_old_align (Declaration.sorted old)
      (Declaration.sorted new), Edit.coe_old]
    exact Multiset.mem_add.mpr (.inr (Multiset.mem_coe.mpr hv))
  have hadded : AllOneLine
      ((Edit.align (Declaration.sorted old) (Declaration.sorted new)).flatMap Edit.added) := by
    intro v hv
    refine hn v (Multiset.mem_coe.mp ?_)
    rw [← Declaration.coe_sorted new, ← Edit.flatMap_new_align (Declaration.sorted old)
      (Declaration.sorted new), Edit.coe_new]
    exact Multiset.mem_add.mpr (.inr (Multiset.mem_coe.mpr hv))
  intro c hc
  refine List.forall_mem_cons.mpr ⟨?_, List.forall_mem_append.mpr ⟨fun s hs => ?_, fun s hs => ?_⟩⟩
  · rw [detail_of_mem_compareEnumValues hc]
    decide
  · have hside := List.mem_filterMap.mpr ⟨c, hc, Option.mem_toList.mp hs⟩
    rw [filterMap_old_compareEnumValues] at hside
    obtain ⟨v, hv, rfl⟩ := List.mem_map.mp hside
    exact hvalue hold (hdropped v hv)
  · have hside := List.mem_filterMap.mpr ⟨c, hc, Option.mem_toList.mp hs⟩
    rw [filterMap_new_compareEnumValues] at hside
    obtain ⟨v, hv, rfl⟩ := List.mem_map.mp hside
    exact hvalue hnew (hadded v hv)

theorem unbroken_nil : Unbroken [] := List.forall_mem_nil _

theorem unbroken_singleton {c : Change} (h : AllOneLine c.texts) : Unbroken [c] :=
  List.forall_mem_singleton.mpr h

section Entries

variable {old new : Option Linked}

theorem unbroken_kindChange (ho : ∀ l ∈ old, l.Unbroken) (hn : ∀ l ∈ new, l.Unbroken) :
    Unbroken (kindChange old new) := by
  have hkind (k : Kind) : OneLine k.name := by cases k <;> decide
  unfold kindChange
  split
  · next o n =>
    split_ifs
    · exact unbroken_nil
    · have hname := Declaration.oneLine_name (hn n rfl).declaration
      have hdetail : OneLine (n.name ++ " type: ") := oneLine_append.mpr ⟨hname, by decide⟩
      exact unbroken_singleton (List.forall_mem_cons.mpr ⟨hdetail,
        List.forall_mem_cons.mpr ⟨hkind _, List.forall_mem_singleton.mpr (hkind _)⟩⟩)
  · exact unbroken_nil

theorem unbroken_compareEnumerations (ho : ∀ l ∈ old, l.Unbroken) (hn : ∀ l ∈ new, l.Unbroken) :
    Unbroken (compareEnumerations old new) := by
  have hname {l : Linked} (h : l.Unbroken) : OneLine l.name :=
    Declaration.oneLine_name h.declaration
  have hvalues {l : Linked} (h : l.Unbroken) : AllOneLine l.declaration.values :=
    Declaration.allOneLine_values h.declaration
  have hnone : AllOneLine [] := List.forall_mem_nil _
  unfold compareEnumerations
  split
  · next o n =>
    exact unbroken_compareEnumValues (hname (ho o rfl)) (hname (hn n rfl)) (hvalues (ho o rfl))
      (hvalues (hn n rfl))
  · next o =>
    exact unbroken_compareEnumValues (hname (ho o rfl)) (hname (ho o rfl)) (hvalues (ho o rfl))
      hnone
  · next n =>
    exact unbroken_compareEnumValues (hname (hn n rfl)) (hname (hn n rfl)) hnone
      (hvalues (hn n rfl))
  · exact unbroken_nil

theorem unbroken_compareLeaves (ho : ∀ l ∈ old, l.Unbroken) (hn : ∀ l ∈ new, l.Unbroken) :
    Unbroken (compareLeaves old new) := by
  have hempty : OneLine "" := by decide
  unfold compareLeaves
  split
  · next o n =>
    split_ifs
    · exact unbroken_nil
    · exact unbroken_singleton (List.forall_mem_cons.mpr ⟨hempty, List.forall_mem_cons.mpr
        ⟨(ho o rfl).oneLine_display, List.forall_mem_singleton.mpr (hn n rfl).oneLine_display⟩⟩)
  · next n =>
    exact unbroken_singleton (List.forall_mem_cons.mpr
      ⟨hempty, List.forall_mem_singleton.mpr (hn n rfl).oneLine_display⟩)
  · next o =>
    exact unbroken_singleton (List.forall_mem_cons.mpr
      ⟨hempty, List.forall_mem_singleton.mpr (ho o rfl).oneLine_display⟩)
  · exact unbroken_nil

theorem unbroken_ownChanges (ho : ∀ l ∈ old, l.Unbroken) (hn : ∀ l ∈ new, l.Unbroken) :
    Unbroken (ownChanges old new) := by
  refine List.forall_mem_append.mpr ⟨unbroken_kindChange ho hn, ?_⟩
  split
  · exact unbroken_compareEnumerations ho hn
  · exact unbroken_compareLeaves ho hn
  · exact unbroken_nil

theorem Unbroken.close {cs : List Change} (h : Unbroken cs) : Unbroken (close cs) := by
  unfold Comparison.close
  split_ifs
  · exact unbroken_nil
  · exact List.forall_mem_append.mpr ⟨h, unbroken_singleton (by decide)⟩

/-- What two entries report breaks no line if nothing in them does. -/
theorem unbroken_compareEntries (dedupe : Bool) (ho : ∀ l ∈ old, l.Unbroken)
    (hn : ∀ l ∈ new, l.Unbroken) : Unbroken (compareEntries dedupe old new) := by
  have hmember {o : Option Linked} (h : ∀ l ∈ o, l.Unbroken) (n : String) :
      ∀ m ∈ o.bind (·.member? n), m.Unbroken := by
    intro m hm
    obtain ⟨l, hl, hm⟩ := Option.bind_eq_some_iff.mp hm
    exact (h l hl).member hm
  induction old, new using entries_induction with
  | step old new ih =>
    rw [compareEntries_eq]
    refine List.forall_mem_append.mpr ⟨unbroken_ownChanges ho hn, Unbroken.close ?_⟩
    unfold memberChanges
    split_ifs with hd
    · intro c hc
      obtain ⟨n, -, hc⟩ := List.mem_flatMap.mp hc
      rw [Index.get?_ofMembers, Index.get?_ofMembers] at hc
      exact ih hd n (hmember ho n) (hmember hn n) c hc
    · exact unbroken_nil

end Entries

/-- What two structures report breaks no line if nothing in them does. -/
theorem unbroken_compare (dedupe : Bool) {old new : Structure}
    (ho : ∀ d ∈ old, AllOneLine d.texts) (hn : ∀ d ∈ new, AllOneLine d.texts) :
    Unbroken (compare dedupe old new) := by
  have hnamed {s : Structure} (h : ∀ d ∈ s, AllOneLine d.texts) (n : String) :
      ∀ l ∈ s.named? n, l.Unbroken := by
    intro l hl
    obtain ⟨d, hd, rfl⟩ := Option.map_eq_some_iff.mp hl
    exact ⟨h d (Declaration.mem_of_lastNamed? hd), nofun⟩
  intro c hc
  obtain ⟨n, -, hc⟩ := List.mem_flatMap.mp hc
  rw [Index.get?_ofStructure, Index.get?_ofStructure] at hc
  exact unbroken_compareEntries dedupe (hnamed ho n) (hnamed hn n) c hc

end Comparison

/-! Lines. -/

namespace Report

/-- The parts of a text between its line feeds. -/
def pieces (s : String) : List String := (s.toList.splitOn '\n').map String.ofList

/-- The lines of a text in which every line ends with a line feed. -/
def textLines (s : String) : List String := (pieces s).dropLast

theorem pieces_append (s t : String) : pieces (s ++ "\n" ++ t) = pieces s ++ pieces t := by
  have htext : (s ++ "\n" ++ t).toList = s.toList ++ '\n' :: t.toList := by simp
  rw [pieces, htext, List.splitOn_append_cons_self, List.map_append]
  rfl

theorem pieces_of_oneLine {s : String} (h : OneLine s) : pieces s = [s] := by
  rw [pieces, List.splitOn_eq_singleton h, List.map_singleton, String.ofList_toList]

theorem length_pieces_pos (s : String) : 0 < (pieces s).length := by
  rw [pieces, List.length_map]
  exact List.length_pos_iff.mpr (List.splitOn_ne_nil _ _)

theorem length_pieces_eq_one_iff (s : String) : (pieces s).length = 1 ↔ OneLine s := by
  constructor
  · intro h hmem
    obtain ⟨xs, ys, hs⟩ := List.append_of_mem hmem
    have hpieces := pieces_append (String.ofList xs) (String.ofList ys)
    have htext : String.ofList xs ++ "\n" ++ String.ofList ys = s := by
      rw [← String.toList_inj, hs]
      simp
    rw [htext] at hpieces
    have hxs := length_pieces_pos (String.ofList xs)
    have hys := length_pieces_pos (String.ofList ys)
    rw [hpieces, List.length_append] at h
    omega
  · intro h
    rw [pieces_of_oneLine h]
    rfl

theorem pieces_lines (cs : List Change) (t : String) :
    pieces (Terminal.lines cs ++ t) = cs.flatMap (fun c => pieces c.display) ++ pieces t := by
  induction cs with
  | nil =>
    show pieces ("" ++ t) = pieces t
    rw [String.empty_append]
  | cons c cs ih =>
    rw [Terminal.lines, List.map_cons, String.join_cons, ← Terminal.lines, String.append_assoc,
      pieces_append, ih, List.flatMap_cons, List.append_assoc]

theorem oneLine_summary (s : Change.Summary) : OneLine s.display := fun hmem =>
  absurd (Change.Summary.le_toNat_of_mem_display hmem) (by decide)

/-- The lines of a text report are the parts of what its changes show, and their count. -/
theorem textLines_render (cs : List Change) (title : String)
    (versions : Option (String × String)) : textLines (render cs .text title versions) =
      cs.flatMap (fun c => pieces c.display) ++ [(Change.Summary.ofList cs).display] := by
  have hsummary := pieces_of_oneLine (oneLine_summary (Change.Summary.ofList cs))
  have hend : pieces "" = [""] := pieces_of_oneLine (by decide)
  have htext : render cs .text title versions =
      Terminal.lines cs ++ ((Change.Summary.ofList cs).display ++ "\n" ++ "") := by
    rw [String.append_empty, ← String.append_assoc]
    rfl
  rw [textLines, htext, pieces_lines, pieces_append, hsummary, hend, ← List.append_assoc,
    List.dropLast_concat]

theorem length_flatMap_pieces (cs : List Change) :
    cs.length ≤ (cs.flatMap fun c => pieces c.display).length ∧
      ((cs.flatMap fun c => pieces c.display).length = cs.length ↔
        ∀ c ∈ cs, OneLine c.display) := by
  induction cs with
  | nil => simp
  | cons c cs ih =>
    obtain ⟨hle, hiff⟩ := ih
    have hpos := length_pieces_pos c.display
    rw [List.flatMap_cons, List.length_append, List.length_cons, List.forall_mem_cons, ← hiff,
      ← length_pieces_eq_one_iff]
    omega

/-- The text report on the comparison of two sources has one line for each change, an empty one for
a separator, and behind them one for their count, exactly if no change shows a line feed. None does
if no string in the sources has one once its escapes are read. -/
theorem textLines_of_extract {old new : String} {s s' : Structure} (ho : extract old = .ok s)
    (hn : extract new = .ok s') (dedupe : Bool) (title : String)
    (versions : Option (String × String)) :
    let cs := Comparison.compare dedupe s s'
    let lines := textLines (render cs .text title versions)
    (lines.length = cs.length + 1 ↔ ∀ c ∈ cs, OneLine c.display) ∧
      (lines = cs.map Change.display ++ [(Change.Summary.ofList cs).display] ↔
        ∀ c ∈ cs, OneLine c.display) ∧
      (AllOneLine (wordsOf old ++ wordsOf new) → ∀ c ∈ cs, OneLine c.display) := by
  intro cs lines
  have hlines : lines = cs.flatMap (fun c => pieces c.display) ++
      [(Change.Summary.ofList cs).display] := textLines_render cs title versions
  have hlength : lines.length = cs.length + 1 ↔ ∀ c ∈ cs, OneLine c.display := by
    rw [hlines, List.length_append, List.length_singleton, Nat.add_right_cancel_iff]
    exact (length_flatMap_pieces cs).2
  refine ⟨hlength, ⟨fun h => ?_, fun h => ?_⟩, fun hwords c hc => ?_⟩
  · rw [← hlength, h, List.length_append, List.length_map, List.length_singleton]
  · rw [hlines, List.flatMap_congr fun c hc => pieces_of_oneLine (h c hc), List.map_eq_flatMap]
  · obtain ⟨hold, hnew⟩ := List.forall_mem_append.mp hwords
    exact Change.not_mem_display (by decide)
      (Comparison.unbroken_compare dedupe (allOneLine_of_extract ho hold)
        (allOneLine_of_extract hn hnew) c hc)

/-- A variable of another type. -/
theorem textLines_of_extract_variable :
    let s := [Declaration.property "x" "\"a\""]
    let s' := [Declaration.property "x" "\"b c\""]
    (extract "let x: 'a'" = .ok s ∧ extract "let x: 'b c'" = .ok s') ∧
      textLines (render (Comparison.compare true s s') .text "" none) =
        ["! x: \"a\" -> x: \"b c\"", "0 added, 0 removed, 1 changed"] := by
  intro s s'
  have ho : extract "let x: 'a'" = .ok s := eq_property_of_nameAndType? (by decide +kernel)
  have hn : extract "let x: 'b c'" = .ok s' := eq_property_of_nameAndType? (by decide +kernel)
  have hcompare : Comparison.compare true s s' =
      [.changed "x" "" "x: \"a\"" "x: \"b c\""] := by cbv
  obtain ⟨-, hlines, hwords⟩ := textLines_of_extract ho hn true "" none
  refine ⟨⟨ho, hn⟩, ?_⟩
  rw [hlines.mpr (hwords (by decide +kernel)), hcompare]
  decide

/-- A line feed that a source writes as an escape breaks the line of its change. -/
theorem not_textLines_of_escape : ¬ ∀ (old new : String) (s s' : Structure),
    extract old = .ok s → extract new = .ok s' → ∀ dedupe title versions,
      (textLines (render (Comparison.compare dedupe s s') .text title versions)).length =
        (Comparison.compare dedupe s s').length + 1 := by
  intro h
  have ho : extract "let x: 'a'" = .ok [.property "x" "\"a\""] :=
    eq_property_of_nameAndType? (by decide +kernel)
  have hn : extract "let x: 'b\\nc'" = .ok [.property "x" "\"b\nc\""] :=
    eq_property_of_nameAndType? (by decide +kernel)
  have hlength := h _ _ _ _ ho hn true "" none
  have hcompare : Comparison.compare true [.property "x" "\"a\""] [.property "x" "\"b\nc\""] =
      [.changed "x" "" "x: \"a\"" "x: \"b\nc\""] := by cbv
  rw [hcompare] at hlength
  exact absurd hlength (by decide)

end Report
end ApiSurface
