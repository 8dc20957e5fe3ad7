import ApiSurface.Proofs.Reversal

/-! What the records of two enumerations say in order. Whatever the alignment, they are a script
that turns the sorted old values into the sorted new ones. Where no value comes twice and the
alignment is a longest one, they are the records of a plain merge: both lists are cut at the values
they share, and the pieces between the cuts are paired off. -/
namespace ApiSurface
namespace Edit

/-- A list is dealt out to two others, each of which keeps its order: the values that are taken out
and those that are left. -/
inductive Splits {α : Type} : List α → List α → List α → Prop
  | nil : Splits [] [] []
  | take (v : α) {whole taken left : List α} (h : Splits whole taken left) :
      Splits (v :: whole) (v :: taken) left
  | leave (v : α) {whole taken left : List α} (h : Splits whole taken left) :
      Splits (v :: whole) taken (v :: left)

namespace Splits

variable {α : Type} {whole taken left : List α}

theorem taken_sublist (h : Splits whole taken left) : taken.Sublist whole := by
  induction h with
  | nil => exact List.Sublist.refl _
  | take v h ih => exact ih.cons_cons v
  | leave v h ih => exact ih.cons v

/-- Nothing gets lost, and nothing comes twice. -/
theorem coe_eq (h : Splits whole taken left) : (whole : Multiset α) = ↑taken + ↑left := by
  induction h with
  | nil => rfl
  | take v h ih => rw [← Multiset.cons_coe, ih, ← Multiset.cons_add, Multiset.cons_coe]
  | leave v h ih => rw [← Multiset.cons_coe, ih, ← Multiset.add_cons, Multiset.cons_coe]

/-- A front that is taken out. -/
theorem take_append (vs : List α) (h : Splits whole taken left) :
    Splits (vs ++ whole) (vs ++ taken) left := by
  induction vs with
  | nil => exact h
  | cons v vs ih => exact ih.take v

/-- A front that is left. -/
theorem leave_append (vs : List α) (h : Splits whole taken left) :
    Splits (vs ++ whole) taken (vs ++ left) := by
  induction vs with
  | nil => exact h
  | cons v vs ih => exact ih.leave v

end Splits

section Blocks

variable {α : Type}

/-- Of the old list the dropped values are taken out, and the kept ones are left. -/
theorem splits_old (es : List (Edit α)) :
    Splits (es.flatMap old) (es.flatMap dropped) (es.flatMap kept) := by
  induction es with
  | nil => exact .nil
  | cons e es ih =>
    cases e with
    | keep vs => exact ih.leave_append vs
    | drop vs => exact ih.take_append vs
    | add vs => exact ih

/-- Of the new list the added values are taken out, and the kept ones are left. -/
theorem splits_new (es : List (Edit α)) :
    Splits (es.flatMap new) (es.flatMap added) (es.flatMap kept) := by
  induction es with
  | nil => exact .nil
  | cons e es ih =>
    cases e with
    | keep vs => exact ih.leave_append vs
    | drop vs => exact ih
    | add vs => exact ih.take_append vs

end Blocks

end Edit

namespace Comparison

open Edit Declaration

/-! Scripts. -/

/-- Records by which the sorted old values become the sorted new ones: the values on their old sides
are taken out of the one list, in order, those on their new sides out of the other, and the same
values are left of both. -/
structure IsScript (oldName newName : String) (old new : List String) (records : List Change)
    (removed added : List String) : Prop where
  oldSides : records.filterMap Change.old? = removed.map (enumValue oldName)
  newSides : records.filterMap Change.new? = added.map (enumValue newName)
  leaves : ∃ left, Splits (sorted old) removed left ∧ Splits (sorted new) added left

namespace IsScript

variable {oldName newName : String} {old new removed added : List String} {records : List Change}

theorem removed_sublist (h : IsScript oldName newName old new records removed added) :
    removed.Sublist (sorted old) := by
  obtain ⟨left, hold, -⟩ := h.leaves
  exact hold.taken_sublist

theorem added_sublist (h : IsScript oldName newName old new records removed added) :
    added.Sublist (sorted new) := by
  obtain ⟨left, -, hnew⟩ := h.leaves
  exact hnew.taken_sublist

/-- Without the values on the old sides and with those on the new sides the old values are the new
ones. -/
theorem coe_new_eq (h : IsScript oldName newName old new records removed added) :
    (new : Multiset String) = ↑old - ↑removed + ↑added := by
  obtain ⟨left, hold, hnew⟩ := h.leaves
  have hleft : (old : Multiset String) - ↑removed = left := by
    rw [← coe_sorted old, hold.coe_eq, add_tsub_cancel_left]
  rw [hleft, ← coe_sorted new, hnew.coe_eq, add_comm]

end IsScript

/-- The records of two enumerations are a script from the sorted old values to the sorted new ones,
whatever values come how often. Their sides are subsequences of the sorted lists, and they account
for the whole difference of the two lists. -/
theorem isScript_compareEnumValues (oldName newName : String) (old new : List String) :
    ∃ removed added,
      IsScript oldName newName old new (compareEnumValues oldName old newName new) removed added ∧
        removed.Sublist (sorted old) ∧ added.Sublist (sorted new) ∧
        (new : Multiset String) = ↑old - ↑removed + ↑added := by
  have hold := splits_old (align (sorted old) (sorted new))
  have hnew := splits_new (align (sorted old) (sorted new))
  rw [flatMap_old_align] at hold
  rw [flatMap_new_align] at hnew
  have hscript : IsScript oldName newName old new (compareEnumValues oldName old newName new)
      ((align (sorted old) (sorted new)).flatMap dropped)
      ((align (sorted old) (sorted new)).flatMap added) :=
    ⟨filterMap_old_compareEnumValues oldName newName old new,
      filterMap_new_compareEnumValues oldName newName old new, _, hold, hnew⟩
  exact ⟨_, _, hscript, hscript.removed_sublist, hscript.added_sublist, hscript.coe_new_eq⟩

/-! The plain merge. -/

/-- The records of a merge of two sorted lists: both are cut at the values they share, and what lies
between the cuts is paired off, piece by piece. -/
def plainMerge (oldName newName : String) (old new : List String) : List Change :=
  (List.zipWith (pairOff oldName newName) ((sorted old).splitOnP (new.contains ·))
    ((sorted new).splitOnP (old.contains ·))).flatten

/-- The values of a sorted list that another list holds as well. -/
def sharedValues (old new : List String) : List String := (sorted old).filter (new.contains ·)

section Cuts

variable (oldName newName : String) {p q : String → Bool} {vs old new : List String}

/-- A list with a first value of some sort is cut there. -/
theorem exists_cut {v : String} (h : old.filter p = v :: vs) :
    ∃ before after, old = before ++ v :: after ∧ v ∉ before ∧ after.filter p = vs ∧
      old.splitOnP p = before :: after.splitOnP p ∧ before.filter (!p ·) = before ∧ p v := by
  obtain ⟨before, after, rfl, hbefore, hv, hafter⟩ := List.filter_eq_cons_iff.mp h
  refine ⟨before, after, rfl, fun hmem => hbefore v hmem hv, hafter, ?_, ?_, hv⟩
  · apply List.splitOnP_append_cons_of_forall_mem
    · intro x hx
      simpa using hbefore x hx
    · exact hv
  · apply List.filter_eq_self.mpr
    intro x hx
    simpa using hbefore x hx

/-- The records between some values are those of the pieces, if these are the values at which the
lists are cut. -/
theorem ofRuns_between_eq_flatten (hold : old.filter p = vs) (hnew : new.filter q = vs) :
    ofRuns oldName newName (Run.between vs old new) =
      (List.zipWith (pairOff oldName newName) (old.splitOnP p) (new.splitOnP q)).flatten := by
  induction vs generalizing old new with
  | nil =>
    have hp : ∀ x ∈ old, p x = false := fun x hx => by
      simpa using List.filter_eq_nil_iff.mp hold x hx
    have hq : ∀ x ∈ new, q x = false := fun x hx => by
      simpa using List.filter_eq_nil_iff.mp hnew x hx
    rw [ofRuns_between_nil, List.splitOnP_eq_singleton hp, List.splitOnP_eq_singleton hq]
    simp
  | cons v vs ih =>
    obtain ⟨os, old', rfl, hos, hold', hcut, -⟩ := exists_cut hold
    obtain ⟨ns, new', rfl, hns, hnew', hcut', -⟩ := exists_cut hnew
    rw [Run.between_cons_append hos hns,
      ofRuns_gap oldName newName os ns (.inr (Run.exists_pushKept_eq _)),
      ofRuns_pushKept, ih hold' hnew', hcut, hcut']
    simp

/-- What is removed between the values at which a list is cut is all the rest of it. -/
theorem flatMap_removedValues_between (hold : old.filter p = vs) (hnew : new.filter q = vs) :
    (Run.between vs old new).flatMap Run.removedValues = old.filter (!p ·) := by
  induction vs generalizing old new with
  | nil =>
    have hrest : old.filter (!p ·) = old := by
      apply List.filter_eq_self.mpr
      intro x hx
      simpa using List.filter_eq_nil_iff.mp hold x hx
    rw [Run.between, Run.flatMap_gap Run.removedValues rfl rfl, hrest]
    simp [Run.removedValues]
  | cons v vs ih =>
    obtain ⟨os, old', rfl, hos, hold', -, hrest, hv⟩ := exists_cut hold
    obtain ⟨ns, new', rfl, hns, hnew', -⟩ := exists_cut hnew
    rw [Run.between_cons_append hos hns, Run.flatMap_gap Run.removedValues rfl rfl,
      Run.flatMap_pushKept Run.removedValues rfl, ih hold' hnew', List.filter_append, hrest]
    simp [Run.removedValues, hv]

end Cuts

section Merge

variable {old new : List String} (ho : old.Nodup)
include ho

/-- Without repeated values the shared ones are the intersection. -/
theorem coe_sharedValues : (sharedValues old new : Multiset String) = ↑old ∩ ↑new := by
  have hshared : (sharedValues old new : Multiset String).Nodup :=
    Multiset.coe_nodup.mpr ((nodup_sorted ho).filter _)
  have hinter : ((old : Multiset String) ∩ ↑new).Nodup :=
    Multiset.nodup_of_le Multiset.inter_le_left (Multiset.coe_nodup.mpr ho)
  apply (Multiset.Nodup.ext hshared hinter).mpr
  intro v
  simp [sharedValues, sorted]

/-- The alignment keeps the shared values exactly if it is a longest one. -/
theorem keptValues_eq_sharedValues_iff :
    keptValues old new = sharedValues old new ↔ IsLongest (align (sorted old) (sorted new)) := by
  rw [isLongest_align_sorted_iff, ← coe_sharedValues ho, Multiset.coe_eq_coe]
  constructor
  · intro h
    exact List.Perm.of_eq h
  · intro h
    exact List.Perm.eq_of_pairwise'
      ((pairwise_sorted old).sublist (keptValues_sublist_left old new))
      ((pairwise_sorted old).filter _) h

variable (hn : new.Nodup)
include hn

/-- Without repeated values two lists share the same values in the same order. -/
theorem sharedValues_comm : sharedValues new old = sharedValues old new := by
  apply List.Perm.eq_of_pairwise' ((pairwise_sorted new).filter _) ((pairwise_sorted old).filter _)
  apply (List.perm_ext_iff_of_nodup ((nodup_sorted hn).filter _) ((nodup_sorted ho).filter _)).mpr
  intro v
  simp only [List.mem_filter, sorted, List.mem_mergeSort, List.contains_iff_mem]
  exact and_comm

/-- The plain merge tells what lies between the shared values. -/
theorem plainMerge_eq_ofRuns (oldName newName : String) :
    plainMerge oldName newName old new =
      ofRuns oldName newName (Run.between (sharedValues old new) (sorted old) (sorted new)) :=
  (ofRuns_between_eq_flatten oldName newName rfl (sharedValues_comm ho hn)).symm

/-- The old sides of a plain merge are the values that only the old list holds. -/
theorem filterMap_old_plainMerge (oldName newName : String) :
    (plainMerge oldName newName old new).filterMap Change.old? =
      ((sorted old).filter (!new.contains ·)).map (enumValue oldName) := by
  have hremoved : (Run.between (sharedValues old new) (sorted old) (sorted new)).flatMap
      Run.removedValues = (sorted old).filter (!new.contains ·) :=
    flatMap_removedValues_between rfl (sharedValues_comm ho hn)
  rw [plainMerge_eq_ofRuns ho hn, filterMap_old_ofRuns, hremoved]

/-- Records with the same old sides leave the same values out. -/
theorem keptValues_eq_of_plainMerge {oldName newName : String}
    (h : compareEnumValues oldName old newName new = plainMerge oldName newName old new) :
    keptValues old new = sharedValues old new := by
  have hsides := congrArg (List.filterMap Change.old?) h
  rw [filterMap_old_compareEnumValues, filterMap_old_plainMerge ho hn] at hsides
  have hdropped := List.map_injective_iff.mpr (enumValue_injective oldName) hsides
  have hkept := coe_old (align (sorted old) (sorted new))
  rw [flatMap_old_align, hdropped] at hkept
  have hshared : (sorted old : Multiset String) =
      ↑(sharedValues old new) + ↑((sorted old).filter (!new.contains ·)) :=
    (Multiset.coe_eq_coe.mpr (List.filter_append_perm (new.contains ·) (sorted old))).symm
  have hcoe : (keptValues old new : Multiset String) = sharedValues old new :=
    add_right_cancel (hkept.symm.trans hshared)
  exact List.Perm.eq_of_pairwise'
    ((pairwise_sorted old).sublist (keptValues_sublist_left old new))
    ((pairwise_sorted old).filter _) (Multiset.coe_eq_coe.mp hcoe)

end Merge

/-- Where no value comes twice, the records of two enumerations are those of a plain merge if and
only if the alignment of the sorted lists is a longest one. It is if the sorted lists start
differently, or share no value between their common ends. -/
theorem compareEnumValues_eq_plainMerge_iff (oldName newName : String) {old new : List String}
    (ho : old.Nodup) (hn : new.Nodup) :
    (compareEnumValues oldName old newName new = plainMerge oldName newName old new ↔
        IsLongest (align (sorted old) (sorted new))) ∧
      (commonFront (sorted old) (sorted new) = 0 ∨
          (middle (sorted old) (sorted new)).Disjoint (middle (sorted new) (sorted old)) →
        compareEnumValues oldName old newName new = plainMerge oldName newName old new) := by
  have hmerge : keptValues old new = sharedValues old new →
      compareEnumValues oldName old newName new = plainMerge oldName newName old new := by
    intro h
    rw [plainMerge_eq_ofRuns ho hn, compareEnumValues_eq_ofRuns_between oldName newName ho hn, h]
  have hlongest : keptValues old new = sharedValues old new ↔
      IsLongest (align (sorted old) (sorted new)) := keptValues_eq_sharedValues_iff ho
  refine ⟨⟨?_, ?_⟩, ?_⟩
  · intro h
    exact hlongest.mp (keptValues_eq_of_plainMerge ho hn h)
  · intro h
    exact hmerge (hlongest.mpr h)
  · intro h
    exact hmerge (hlongest.mpr (isLongest_align (pairwise_sorted old) (pairwise_sorted new) h))

/-- Colours of which one is replaced and one is added; the lists share the last one only. -/
theorem compareEnumValues_eq_plainMerge_colors :
    ["B", "Z"].Nodup ∧ ["A", "C", "Z"].Nodup ∧
      ((compareEnumValues "Old" ["B", "Z"] "New" ["A", "C", "Z"] =
            plainMerge "Old" "New" ["B", "Z"] ["A", "C", "Z"] ↔
          IsLongest (align (sorted ["B", "Z"]) (sorted ["A", "C", "Z"]))) ∧
        compareEnumValues "Old" ["B", "Z"] "New" ["A", "C", "Z"] =
          plainMerge "Old" "New" ["B", "Z"] ["A", "C", "Z"]) := by
  have ho : ["B", "Z"].Nodup := by decide
  have hn : ["A", "C", "Z"].Nodup := by decide
  have hfront : commonFront (sorted ["B", "Z"]) (sorted ["A", "C", "Z"]) = 0 := by cbv
  have h := compareEnumValues_eq_plainMerge_iff "Old" "New" ho hn
  exact ⟨ho, hn, h.1, h.2 (.inl hfront)⟩

/-- Behind a common front the comparison may tell a shared value as a rename, where the plain merge
keeps it: `C` is in both lists. -/
theorem compareEnumValues_ne_plainMerge_between :
    ["A", "C"].Nodup ∧ ["A", "B", "C", "D"].Nodup ∧
      plainMerge "Color" "Color" ["A", "C"] ["A", "B", "C", "D"] =
        [.added "Color" "" "Color.B", .added "Color" "" "Color.D"] ∧
      compareEnumValues "Color" ["A", "C"] "Color" ["A", "B", "C", "D"] ≠
        plainMerge "Color" "Color" ["A", "C"] ["A", "B", "C", "D"] := by
  have hmerge : plainMerge "Color" "Color" ["A", "C"] ["A", "B", "C", "D"] =
      [.added "Color" "" "Color.B", .added "Color" "" "Color.D"] := by cbv
  refine ⟨by decide, by decide, hmerge, ?_⟩
  rw [compareEnumValues_between, hmerge]
  decide

end Comparison
end ApiSurface
