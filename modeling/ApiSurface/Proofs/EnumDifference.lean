import ApiSurface.Proofs.CollectedRuns
import ApiSurface.Proofs.LongestAlignment

/-! Which values the comparison of two enumerations reports. The values that the alignment of the
sorted lists drops stand on the old side of the records and those it adds on the new side, so the
records show the difference of the two lists exactly if the alignment is a longest one. -/
namespace ApiSurface
namespace Run

variable {α : Type}

def removedValues : Run α → List α
  | removed vs => vs
  | kept | added _ => []

def addedValues : Run α → List α
  | added vs => vs
  | kept | removed _ => []

theorem flatMap_pushKept {β : Type} (f : Run α → List β) (hf : f kept = []) (rs : List (Run α)) :
    (pushKept rs).flatMap f = rs.flatMap f := by
  unfold pushKept
  split <;> simp [hf]

theorem flatMap_gap {β : Type} (f : Run α → List β) (hr : f (removed []) = [])
    (ha : f (added []) = []) (ds as : List α) (rest : List (Run α)) :
    (gap ds as rest).flatMap f = f (removed ds) ++ (f (added as) ++ rest.flatMap f) := by
  cases ds <;> cases as <;> simp [gap, hr, ha]

/-- What is told of the runs is what is told of the blocks, if of a gap only one side is told. -/
theorem flatMap_collect {β : Type} (f : Run α → List β) (g : Edit α → List β) (hk : f kept = [])
    (hr : f (removed []) = []) (ha : f (added []) = []) (hkeep : ∀ vs, g (.keep vs) = [])
    (hdrop : ∀ ds as vs,
      f (removed (ds ++ vs)) ++ f (added as) = f (removed ds) ++ f (added as) ++ g (.drop vs))
    (hadd : ∀ ds as vs,
      f (removed ds) ++ f (added (as ++ vs)) = f (removed ds) ++ f (added as) ++ g (.add vs))
    (ds as : List α) (es : List (Edit α)) :
    (collect ds as es).flatMap f = f (removed ds) ++ f (added as) ++ es.flatMap g := by
  fun_induction collect ds as es with
  | case1 ds as => simp [flatMap_gap f hr ha]
  | case2 ds as vs es ih =>
    rw [flatMap_gap f hr ha, flatMap_pushKept f hk, ih, List.flatMap_cons, hkeep, hr, ha]
    simp
  | case3 ds as vs es ih => rw [ih, hdrop, List.flatMap_cons, List.append_assoc _ (g _)]
  | case4 ds as vs es ih => rw [ih, hadd, List.flatMap_cons, List.append_assoc _ (g _)]

theorem flatMap_removedValues_collect (es : List (Edit α)) :
    (collect [] [] es).flatMap removedValues = es.flatMap Edit.dropped :=
  flatMap_collect removedValues Edit.dropped rfl rfl rfl (fun _ => rfl)
    (by simp [removedValues, Edit.dropped]) (by simp [removedValues, Edit.dropped]) [] [] es

theorem flatMap_addedValues_collect (es : List (Edit α)) :
    (collect [] [] es).flatMap addedValues = es.flatMap Edit.added :=
  flatMap_collect addedValues Edit.added rfl rfl rfl (fun _ => rfl)
    (by simp [addedValues, Edit.added]) (by simp [addedValues, Edit.added]) [] [] es

end Run

namespace Declaration

theorem coe_sorted (vs : List String) : (sorted vs : Multiset String) = vs :=
  Multiset.coe_eq_coe.mpr (List.mergeSort_perm vs _)

theorem pairwise_sorted (vs : List String) : (sorted vs).Pairwise (· ≤ ·) := by
  refine (List.pairwise_mergeSort ?_ ?_ vs).imp of_decide_eq_true
  · intro a b c hab hbc
    exact decide_eq_true ((of_decide_eq_true hab).trans (of_decide_eq_true hbc))
  · intro a b
    simpa using le_total a b

end Declaration

namespace Comparison

open Edit Declaration

theorem enumValue_injective (name : String) : Function.Injective (enumValue name) := by
  intro v w h
  simpa [enumValue] using h

section Records

variable (oldName newName : String)

theorem pairOff_cons_cons (o n : String) (os ns : List String) :
    pairOff oldName newName (o :: os) (n :: ns) =
      .changed oldName "" (enumValue oldName o) (enumValue newName n)
        :: pairOff oldName newName os ns := by
  simp [pairOff]

theorem filterMap_old_pairOff (os ns : List String) :
    (pairOff oldName newName os ns).filterMap Change.old? = os.map (enumValue oldName) := by
  induction os generalizing ns with
  | nil => simp [pairOff, Change.old?, List.filterMap_map, Function.comp_def]
  | cons o os ih =>
    cases ns with
    | nil => simp [pairOff, Change.old?, List.filterMap_map, Function.comp_def]
    | cons n ns => simp [pairOff_cons_cons, Change.old?, ih]

theorem filterMap_new_pairOff (os ns : List String) :
    (pairOff oldName newName os ns).filterMap Change.new? = ns.map (enumValue newName) := by
  induction os generalizing ns with
  | nil => simp [pairOff, Change.new?, List.filterMap_map, Function.comp_def]
  | cons o os ih =>
    cases ns with
    | nil => simp [pairOff, Change.new?]
    | cons n ns => simp [pairOff_cons_cons, Change.new?, ih]

theorem filterMap_old_ofRuns (rs : List (Run String)) :
    (ofRuns oldName newName rs).filterMap Change.old? =
      (rs.flatMap Run.removedValues).map (enumValue oldName) := by
  fun_induction ofRuns oldName newName rs <;>
    simp_all [filterMap_old_pairOff, Run.removedValues]

theorem filterMap_new_ofRuns (rs : List (Run String)) :
    (ofRuns oldName newName rs).filterMap Change.new? =
      (rs.flatMap Run.addedValues).map (enumValue newName) := by
  fun_induction ofRuns oldName newName rs <;>
    simp_all [filterMap_new_pairOff, Run.addedValues]

variable (old new : List String)

/-- What is told of the runs of two enumerations is what is told of the blocks of the alignment. -/
theorem flatMap_enumRuns (f : Run String → List String) (g : Edit String → List String)
    (hcollect : ∀ es, (Run.collect [] [] es).flatMap f = es.flatMap g)
    (hnil : f (.removed []) = g (.drop [])) :
    (enumRuns old new).flatMap f = (align (sorted old) (sorted new)).flatMap g := by
  by_cases h : old ≠ [] ∨ new ≠ []
  · rw [enumRuns_eq_collect h, hcollect]
  · obtain ⟨rfl, rfl⟩ : old = [] ∧ new = [] := by simpa using h
    rw [enumRuns_nil, sorted_eq_nil.mpr rfl, align_nil, List.flatMap_singleton, hnil,
      List.flatMap_singleton]

/-- The old sides of the records are the values that the alignment drops. -/
theorem filterMap_old_compareEnumValues :
    (compareEnumValues oldName old newName new).filterMap Change.old? =
      ((align (sorted old) (sorted new)).flatMap dropped).map (enumValue oldName) := by
  rw [compareEnumValues, filterMap_old_ofRuns,
    flatMap_enumRuns old new Run.removedValues dropped Run.flatMap_removedValues_collect rfl]

/-- The new sides of the records are the values that the alignment adds. -/
theorem filterMap_new_compareEnumValues :
    (compareEnumValues oldName old newName new).filterMap Change.new? =
      ((align (sorted old) (sorted new)).flatMap added).map (enumValue newName) := by
  rw [compareEnumValues, filterMap_new_ofRuns,
    flatMap_enumRuns old new Run.addedValues added Run.flatMap_addedValues_collect rfl]

/-- The records show exactly the values by which two enumerations differ, as often as they do. -/
structure ReportsDifference : Prop where
  oldSides : ((compareEnumValues oldName old newName new).filterMap Change.old? : Multiset String) =
    ((old : Multiset String) - new).map (enumValue oldName)
  newSides : ((compareEnumValues oldName old newName new).filterMap Change.new? : Multiset String) =
    ((new : Multiset String) - old).map (enumValue newName)
  /-- A value that both hold equally often is on no side of a record. -/
  unreported : ∀ v, old.count v = new.count v →
    enumValue oldName v ∉ (compareEnumValues oldName old newName new).filterMap Change.old? ∧
    enumValue newName v ∉ (compareEnumValues oldName old newName new).filterMap Change.new?
  /-- No record changes a value to itself. -/
  distinct : ∀ group detail v, .changed group detail (enumValue oldName v) (enumValue newName v) ∉
    compareEnumValues oldName old newName new

theorem isLongest_align_sorted_iff :
    IsLongest (align (sorted old) (sorted new)) ↔
      ((align (sorted old) (sorted new)).flatMap kept : Multiset String) =
        (old : Multiset String) ∩ new := by
  have ho := flatMap_old_align (sorted old) (sorted new)
  have hn := flatMap_new_align (sorted old) (sorted new)
  rw [isLongest_iff _ (ho.symm ▸ pairwise_sorted old) (hn.symm ▸ pairwise_sorted new), ho, hn,
    coe_sorted, coe_sorted]

variable {oldName newName old new}

/-- The records show the difference of the two lists if all shared values are kept. -/
theorem reportsDifference_of_kept
    (h : ((align (sorted old) (sorted new)).flatMap kept : Multiset String) =
      (old : Multiset String) ∩ new) :
    ReportsDifference oldName newName old new := by
  have ho := flatMap_old_align (sorted old) (sorted new)
  have hn := flatMap_new_align (sorted old) (sorted new)
  have hd := (coe_dropped_eq_iff (align (sorted old) (sorted new))).mpr
  have ha := (coe_added_eq_iff (align (sorted old) (sorted new))).mpr
  rw [ho, hn, coe_sorted, coe_sorted] at hd ha
  have hos : ((compareEnumValues oldName old newName new).filterMap Change.old? : Multiset String) =
      ((old : Multiset String) - new).map (enumValue oldName) := by
    rw [filterMap_old_compareEnumValues, ← Multiset.map_coe, hd h]
  have hns : ((compareEnumValues oldName old newName new).filterMap Change.new? : Multiset String) =
      ((new : Multiset String) - old).map (enumValue newName) := by
    rw [filterMap_new_compareEnumValues, ← Multiset.map_coe, ha h]
  have hmo : ∀ v, enumValue oldName v ∈
      (compareEnumValues oldName old newName new).filterMap Change.old? ↔
        new.count v < old.count v := by
    intro v
    rw [← Multiset.mem_coe, hos, Multiset.mem_map_of_injective (enumValue_injective oldName),
      Multiset.mem_sub, Multiset.coe_count, Multiset.coe_count]
  have hmn : ∀ v, enumValue newName v ∈
      (compareEnumValues oldName old newName new).filterMap Change.new? ↔
        old.count v < new.count v := by
    intro v
    rw [← Multiset.mem_coe, hns, Multiset.mem_map_of_injective (enumValue_injective newName),
      Multiset.mem_sub, Multiset.coe_count, Multiset.coe_count]
  refine ⟨hos, hns, fun v hv => ⟨?_, ?_⟩, fun group detail v hc => ?_⟩
  · rw [hmo, hv]
    exact lt_irrefl _
  · rw [hmn, hv]
    exact lt_irrefl _
  · -- a value cannot be in excess on both sides
    have hv := (hmo v).mp (List.mem_filterMap.mpr ⟨_, hc, rfl⟩)
    exact lt_asymm hv ((hmn v).mp (List.mem_filterMap.mpr ⟨_, hc, rfl⟩))

theorem kept_of_reportsDifference (h : ReportsDifference oldName newName old new) :
    ((align (sorted old) (sorted new)).flatMap kept : Multiset String) =
      (old : Multiset String) ∩ new := by
  have hd := (coe_dropped_eq_iff (align (sorted old) (sorted new))).mp
  rw [flatMap_old_align, flatMap_new_align, coe_sorted, coe_sorted] at hd
  have hos := h.oldSides
  rw [filterMap_old_compareEnumValues, ← Multiset.map_coe] at hos
  exact hd (Multiset.map_injective (enumValue_injective oldName) hos)

end Records

/-- The records of two enumerations show exactly the difference of their values if and only if the
alignment of the sorted lists is a longest one. It is if the sorted lists start differently, or
share no value between their common ends. -/
theorem reportsDifference_iff_isLongest (oldName newName : String) (old new : List String) :
    (ReportsDifference oldName newName old new ↔ IsLongest (align (sorted old) (sorted new))) ∧
    (commonFront (sorted old) (sorted new) = 0 ∨
        (middle (sorted old) (sorted new)).Disjoint (middle (sorted new) (sorted old)) →
      ReportsDifference oldName newName old new) := by
  have hk := isLongest_align_sorted_iff old new
  constructor
  · constructor
    · exact fun h => hk.mpr (kept_of_reportsDifference h)
    · exact fun h => reportsDifference_of_kept (hk.mp h)
  · intro h
    have hl := isLongest_align (pairwise_sorted old) (pairwise_sorted new) h
    exact reportsDifference_of_kept (hk.mp hl)

/-- Two values added around a shared one make the shared one a rename: `A` is the common front, and
the table that guides the walk behind it is the one of the heads of the lists. -/
theorem compareEnumValues_between :
    compareEnumValues "Color" ["A", "C"] "Color" ["A", "B", "C", "D"] =
      [.changed "Color" "" "Color.C" "Color.B", .added "Color" "" "Color.C",
        .added "Color" "" "Color.D"] := by
  cbv

theorem not_reportsDifference_between :
    ¬ ReportsDifference "Color" "Color" ["A", "C"] ["A", "B", "C", "D"] := by
  intro h
  have hc := (h.unreported "C" (by decide)).1
  rw [compareEnumValues_between] at hc
  exact hc (by decide)

/-! When two enumerations report nothing. -/

/-- What holds of a record on two values that are paired off, and of one on a value that is left
over, holds of all records of two enumerations. -/
theorem forall_mem_compareEnumValues {P : Change → Prop} {oldName newName : String}
    (hchanged : ∀ o n, P (.changed oldName "" (enumValue oldName o) (enumValue newName n)))
    (hremoved : ∀ o, P (.removed oldName "" (enumValue oldName o)))
    (hadded : ∀ n, P (.added newName "" (enumValue newName n))) (old new : List String) :
    ∀ c ∈ compareEnumValues oldName old newName new, P c := by
  have hpairs (os ns : List String) : ∀ c ∈ pairOff oldName newName os ns, P c := by
    refine List.forall_mem_append.mpr ⟨List.forall_mem_append.mpr ⟨fun c hc => ?_, ?_⟩, ?_⟩
    · rw [← List.map_uncurry_zip_eq_zipWith] at hc
      obtain ⟨⟨o, n⟩, -, rfl⟩ := List.mem_map.mp hc
      exact hchanged o n
    · exact List.forall_mem_map.mpr fun o _ => hremoved o
    · exact List.forall_mem_map.mpr fun n _ => hadded n
  have hruns (rs : List (Run String)) : ∀ c ∈ ofRuns oldName newName rs, P c := by
    fun_induction ofRuns oldName newName rs with
    | case1 => exact nofun
    | case2 os ns rest ih => exact List.forall_mem_append.mpr ⟨hpairs os ns, ih⟩
    | case3 os rest _ ih => exact List.forall_mem_append.mpr ⟨hpairs os [], ih⟩
    | case4 ns rest ih => exact List.forall_mem_append.mpr ⟨hpairs [] ns, ih⟩
    | case5 rest ih => exact ih
  exact hruns _

theorem isSeparator_of_mem_compareEnumValues {oldName newName : String} {old new : List String}
    {c : Change} (h : c ∈ compareEnumValues oldName old newName new) : c.isSeparator = false :=
  forall_mem_compareEnumValues (P := (·.isSeparator = false)) (fun _ _ => rfl) (fun _ => rfl)
    (fun _ => rfl) old new c h

theorem detail_of_mem_compareEnumValues {oldName newName : String} {old new : List String}
    {c : Change} (h : c ∈ compareEnumValues oldName old newName new) : c.detail = "" :=
  forall_mem_compareEnumValues (P := (·.detail = "")) (fun _ _ => rfl) (fun _ => rfl)
    (fun _ => rfl) old new c h

/-- Every record but a separator has a side. -/
theorem eq_nil_of_sides_eq_nil {cs : List Change} (h : ∀ c ∈ cs, c.isSeparator = false)
    (ho : cs.filterMap Change.old? = []) (hn : cs.filterMap Change.new? = []) : cs = [] := by
  refine List.eq_nil_iff_forall_not_mem.mpr fun c hc => ?_
  have ho := List.filterMap_eq_nil_iff.mp ho c hc
  have hn := List.filterMap_eq_nil_iff.mp hn c hc
  have hs := h c hc
  cases c <;> simp_all [Change.old?, Change.new?, Change.isSeparator]

/-- Two enumerations report nothing exactly if they have the same values, in any order. -/
theorem compareEnumValues_eq_nil_iff (oldName newName : String) (old new : List String) :
    compareEnumValues oldName old newName new = [] ↔ old.Perm new := by
  have ho := coe_old (align (sorted old) (sorted new))
  have hn := coe_new (align (sorted old) (sorted new))
  rw [flatMap_old_align, coe_sorted] at ho
  rw [flatMap_new_align, coe_sorted] at hn
  have hd := filterMap_old_compareEnumValues oldName newName old new
  have ha := filterMap_new_compareEnumValues oldName newName old new
  constructor
  · intro h
    rw [h] at hd ha
    rw [List.map_eq_nil_iff.mp hd.symm, Multiset.coe_nil, add_zero] at ho
    rw [List.map_eq_nil_iff.mp ha.symm, Multiset.coe_nil, add_zero] at hn
    exact Multiset.coe_eq_coe.mp (ho.trans hn.symm)
  · intro h
    have hs : sorted old = sorted new :=
      List.Perm.eq_of_pairwise' (pairwise_sorted old) (pairwise_sorted new)
        (Multiset.coe_eq_coe.mp ((coe_sorted old).trans ((Multiset.coe_eq_coe.mpr h).trans
          (coe_sorted new).symm)))
    have hl := isLongest_align (pairwise_sorted old) (pairwise_sorted new)
      (Or.inr (by rw [hs, middle_self]; exact List.disjoint_nil_left _))
    have hk := (isLongest_align_sorted_iff old new).mp hl
    have hr : ReportsDifference oldName newName old new := reportsDifference_of_kept hk
    have hz : (old : Multiset String) = new := Multiset.coe_eq_coe.mpr h
    refine eq_nil_of_sides_eq_nil (fun c => isSeparator_of_mem_compareEnumValues) ?_ ?_
    · simpa [hz] using hr.oldSides
    · simpa [hz] using hr.newSides

end Comparison
end ApiSurface
