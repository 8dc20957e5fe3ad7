import ApiSurface.Proofs.VersionOrder

/-! Sorting by version. What stands in order already is left in order, so that equal versions stay
as they are, and texts that are no versions come first, as they came. -/
namespace ApiSurface

/-- Where what has a property stands before what has it not, the list is cut in two. -/
theorem eq_filter_append_filter {α : Type} {p : α → Bool} {xs : List α}
    (h : xs.Pairwise fun a b => p b → p a) :
    xs = xs.filter p ++ xs.filter fun x => !p x := by
  induction xs with
  | nil => rfl
  | cons x xs ih =>
    obtain ⟨hx, hxs⟩ := List.pairwise_cons.1 h
    by_cases hp : p x
    · simpa [hp] using ih hxs
    · have hnone : xs.filter p = [] := List.filter_eq_nil_iff.2 fun y hy hpy => hp (hx y hy hpy)
      have hall : (xs.filter fun x => !p x) = xs :=
        List.filter_eq_self.2 fun y hy => by simpa using fun hpy => hp (hx y hy hpy)
      simp [hp, hnone, hall]

namespace Version

theorem compareTexts_self (a : String) : compareTexts a a = .eq := compareTexts_eq_eq.2 rfl

/-- Texts that are no versions are first and equal to each other. -/
theorem compareTexts_isLE_of_parse?_eq_none {a : String} (h : parse? a = none) (b : String) :
    (compareTexts a b).isLE := by
  unfold compareTexts
  rw [h]
  cases parse? b <;> rfl

theorem parse?_eq_none_of_isLE {a b : String} (h : (compareTexts a b).isLE)
    (hb : parse? b = none) : parse? a = none := by
  unfold compareTexts at h
  rw [hb] at h
  cases ha : parse? a with
  | none => rfl
  | some v => simp [ha] at h

section Sorting

variable {α : Type} (text : α → String) {xs : List α}

theorem sortOn_of_pairwise
    (h : xs.Pairwise fun a b => (compareTexts (text a) (text b)).isLE) : sortOn text xs = xs :=
  List.mergeSort_of_pairwise h

/-- Some of the values that stand in order among themselves stay as they are. -/
theorem filter_sortOn {p : α → Bool}
    (h : ∀ a b, p a → p b → (compareTexts (text a) (text b)).isLE) :
    (sortOn text xs).filter p = xs.filter p := by
  have hordered : (xs.filter p).Pairwise fun a b => (compareTexts (text a) (text b)).isLE := by
    rw [List.pairwise_filter]
    exact List.pairwise_of_forall fun a b ha hb => h a b ha hb
  have hkept : (xs.filter p).Sublist (sortOn text xs) := by
    refine List.sublist_mergeSort (fun a b c hab hbc => ?_) (fun a b => ?_) hordered
      List.filter_sublist
    · exact compareTexts_isLE_trans hab hbc
    · exact Bool.or_eq_true _ _ ▸ compareTexts_isLE_total (text a) (text b)
  have hsub : (xs.filter p).Sublist ((sortOn text xs).filter p) := by
    simpa using hkept.filter p
  exact (hsub.eq_of_length ((sortOn_perm text xs).filter p).length_eq.symm).symm

/-- The values whose text is no version come first, in the order they came in. -/
theorem sortOn_eq_append : sortOn text xs =
    (xs.filter fun x => (parse? (text x)).isNone) ++
      (sortOn text xs).filter fun x => (parse? (text x)).isSome := by
  have hcut := eq_filter_append_filter (p := fun x => (parse? (text x)).isNone)
    ((pairwise_sortOn text xs).imp fun h hb =>
      Option.isNone_iff_eq_none.2 (parse?_eq_none_of_isLE h (Option.isNone_iff_eq_none.1 hb)))
  have hfront : (sortOn text xs).filter (fun x => (parse? (text x)).isNone) =
      xs.filter fun x => (parse? (text x)).isNone :=
    filter_sortOn text fun a b ha _ =>
      compareTexts_isLE_of_parse?_eq_none (Option.isNone_iff_eq_none.1 ha) _
  rw [hfront] at hcut
  simpa using hcut

end Sorting

/-- Version texts are totally preordered, and equal if both are no versions or both the same one.
Sorting values by their version texts gives the same values in ascending order: equal ones stay in
the order they came in, those whose text is no version come first, and sorting again changes
nothing. -/
theorem texts_preordered_and_sorted :
    (∀ a, compareTexts a a = .eq) ∧
    (∀ a b c, (compareTexts a b).isLE → (compareTexts b c).isLE → (compareTexts a c).isLE) ∧
    (∀ a b, (compareTexts a b).isLE ∨ (compareTexts b a).isLE) ∧
    (∀ a b, compareTexts a b = (compareTexts b a).swap) ∧
    (∀ a b, compareTexts a b = .eq ↔
      parse? a = none ∧ parse? b = none ∨ ∃ v, parse? a = some v ∧ parse? b = some v) ∧
    ∀ (α : Type) (text : α → String) (xs : List α),
      (sortOn text xs).Perm xs ∧
      ((sortOn text xs).Pairwise fun a b => (compareTexts (text a) (text b)).isLE) ∧
      (∀ t, ((sortOn text xs).filter fun x => compareTexts (text x) t = .eq) =
        xs.filter fun x => compareTexts (text x) t = .eq) ∧
      (∃ rest, sortOn text xs = (xs.filter fun x => (parse? (text x)).isNone) ++ rest ∧
        ∀ x ∈ rest, (parse? (text x)).isSome) ∧
      sortOn text (sortOn text xs) = sortOn text xs := by
  refine ⟨compareTexts_self, fun a b c => compareTexts_isLE_trans, compareTexts_isLE_total,
    compareTexts_swap, fun a b => ?_, fun α text xs => ⟨sortOn_perm text xs,
      pairwise_sortOn text xs, fun t => ?_, ?_, sortOn_of_pairwise text (pairwise_sortOn text xs)⟩⟩
  · rw [compareTexts_eq_eq]
    cases parse? a <;> cases parse? b <;> simp [eq_comm]
  · refine filter_sortOn text fun a b ha hb => ?_
    have hab : compareTexts (text a) (text b) = .eq := by
      rw [compareTexts_eq_eq, compareTexts_eq_eq.1 (of_decide_eq_true ha),
        compareTexts_eq_eq.1 (of_decide_eq_true hb)]
    simp [hab]
  · exact ⟨_, sortOn_eq_append text, fun x hx => (List.mem_filter.1 hx).2⟩

/-- Three texts in a row, the first of them no version. -/
theorem texts_preordered_and_sorted_nightly :
    ((compareTexts "nightly" "1.0.0").isLE ∧
      (compareTexts "1.0.0" "1.1.0-beta.1.20.10-stable").isLE) ∧
    (compareTexts "nightly" "1.1.0-beta.1.20.10-stable").isLE := by
  have hfirst : (compareTexts "nightly" "1.0.0").isLE := by decide +kernel
  have hlast : (compareTexts "1.0.0" "1.1.0-beta.1.20.10-stable").isLE := by decide +kernel
  exact ⟨⟨hfirst, hlast⟩, texts_preordered_and_sorted.2.1 _ _ _ hfirst hlast⟩

end Version
end ApiSurface
