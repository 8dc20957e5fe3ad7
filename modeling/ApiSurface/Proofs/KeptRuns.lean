import ApiSurface.Proofs.EnumDifference

/-! What the values that an alignment keeps say of its runs. Where no list holds a value twice, the
runs are those between the kept values, whatever way the alignment was found. -/
namespace ApiSurface
namespace Run

variable {α : Type} [DecidableEq α]

/-- The runs of two lists between some values that both hold. -/
def between : List α → List α → List α → List (Run α)
  | [], old, new => gap old new []
  | v :: vs, old, new =>
    gap (old.takeWhile (· ≠ v)) (new.takeWhile (· ≠ v))
      (pushKept (between vs (old.dropWhile (· ≠ v)).tail (new.dropWhile (· ≠ v)).tail))

/-- The first gap ends where the first kept value stands. -/
theorem between_cons_append {v : α} {ds as : List α} (hd : v ∉ ds) (ha : v ∉ as)
    (vs old new : List α) :
    between (v :: vs) (ds ++ v :: old) (as ++ v :: new) =
      gap ds as (pushKept (between vs old new)) := by
  have hds : ∀ x ∈ ds, decide (x ≠ v) = true := fun x hx =>
    decide_eq_true fun hv => hd (hv ▸ hx)
  have has : ∀ x ∈ as, decide (x ≠ v) = true := fun x hx =>
    decide_eq_true fun hv => ha (hv ▸ hx)
  rw [between, List.takeWhile_append_of_pos hds, List.takeWhile_append_of_pos has,
    List.dropWhile_append_of_pos hds, List.dropWhile_append_of_pos has]
  simp

/-- Values kept next to each other have no runs between them. -/
theorem pushKept_between_append (vs ws old new : List α) :
    pushKept (between (vs ++ ws) (vs ++ old) (vs ++ new)) = pushKept (between ws old new) := by
  induction vs with
  | nil => rfl
  | cons v vs ih =>
    have h : between (v :: (vs ++ ws)) (v :: (vs ++ old)) (v :: (vs ++ new)) =
        gap [] [] (pushKept (between (vs ++ ws) (vs ++ old) (vs ++ new))) :=
      between_cons_append List.not_mem_nil List.not_mem_nil _ _ _
    rw [gap_nil_nil] at h
    rw [List.cons_append, List.cons_append, List.cons_append, h, pushKept_pushKept, ih]

/-- What is collected from blocks that are not empty lies between the kept values. -/
theorem collect_eq_between {es : List (Edit α)} (hs : Edit.Solid es) (ds as : List α)
    (ho : (ds ++ es.flatMap Edit.old).Nodup) (hn : (as ++ es.flatMap Edit.new).Nodup) :
    collect ds as es =
      between (es.flatMap Edit.kept) (ds ++ es.flatMap Edit.old) (as ++ es.flatMap Edit.new) := by
  induction es generalizing ds as with
  | nil => simp [collect, between]
  | cons e es ih =>
    obtain ⟨he, hes⟩ := Edit.solid_cons.mp hs
    cases e with
    | drop vs =>
      simp only [List.flatMap_cons, Edit.old, Edit.new, List.nil_append] at ho hn
      rw [← List.append_assoc] at ho
      simpa [collect, Edit.old, Edit.new, Edit.kept] using ih hes (ds ++ vs) as ho hn
    | add vs =>
      simp only [List.flatMap_cons, Edit.old, Edit.new, List.nil_append] at ho hn
      rw [← List.append_assoc] at hn
      simpa [collect, Edit.old, Edit.new, Edit.kept] using ih hes ds (as ++ vs) ho hn
    | keep vs =>
      cases vs with
      | nil => simp [Edit.values] at he
      | cons v vs =>
        simp only [List.flatMap_cons, Edit.old, Edit.new, List.cons_append] at ho hn
        have hds : v ∉ ds := fun h => List.disjoint_of_nodup_append ho h List.mem_cons_self
        have has : v ∉ as := fun h => List.disjoint_of_nodup_append hn h List.mem_cons_self
        have hrest := ih hes [] [] ho.of_append_right.of_cons.of_append_right
          hn.of_append_right.of_cons.of_append_right
        simp only [List.nil_append] at hrest
        simp only [collect, List.flatMap_cons, Edit.old, Edit.new, Edit.kept, List.cons_append]
        rw [between_cons_append hds has, pushKept_between_append, hrest]

end Run

namespace Comparison

open Edit Declaration

theorem nodup_sorted {vs : List String} (h : vs.Nodup) : (sorted vs).Nodup :=
  (List.mergeSort_perm vs _).nodup_iff.mpr h

/-- The values that the comparison of two enumerations takes for the same. -/
def keptValues (old new : List String) : List String :=
  (align (sorted old) (sorted new)).flatMap kept

section Records

variable (oldName newName : String)

theorem ofRuns_pushKept (rs : List (Run String)) :
    ofRuns oldName newName (Run.pushKept rs) = ofRuns oldName newName rs := by
  unfold Run.pushKept
  split <;> simp [ofRuns]

/-- A gap is told by itself if kept values, or nothing, come behind it. -/
theorem ofRuns_gap (ds as : List String) {rest : List (Run String)}
    (h : rest = [] ∨ ∃ rs, rest = Run.kept :: rs) :
    ofRuns oldName newName (Run.gap ds as rest) =
      pairOff oldName newName ds as ++ ofRuns oldName newName rest := by
  rcases h with rfl | ⟨rs, rfl⟩
  · cases ds <;> cases as <;> simp [Run.gap, ofRuns]
  · cases ds <;> cases as <;> simp [Run.gap, ofRuns]

theorem ofRuns_between_nil (old new : List String) :
    ofRuns oldName newName (Run.between [] old new) = pairOff oldName newName old new := by
  rw [Run.between, ofRuns_gap oldName newName old new (.inl rfl)]
  exact List.append_nil _

/-- The records between kept values: those of the first gap, then those behind it. -/
theorem ofRuns_between_cons (v : String) (vs old new : List String) :
    ofRuns oldName newName (Run.between (v :: vs) old new) =
      pairOff oldName newName (old.takeWhile (· ≠ v)) (new.takeWhile (· ≠ v)) ++
        ofRuns oldName newName
          (Run.between vs (old.dropWhile (· ≠ v)).tail (new.dropWhile (· ≠ v)).tail) := by
  rw [Run.between, ofRuns_gap oldName newName _ _ (.inr (Run.exists_pushKept_eq _)),
    ofRuns_pushKept]

/-- Without repeated values the records of two enumerations are those between the kept values. -/
theorem compareEnumValues_eq_ofRuns_between {old new : List String} (ho : old.Nodup)
    (hn : new.Nodup) :
    compareEnumValues oldName old newName new =
      ofRuns oldName newName (Run.between (keptValues old new) (sorted old) (sorted new)) := by
  by_cases h : old ≠ [] ∨ new ≠ []
  · have hs : Solid (align (sorted old) (sorted new)) :=
      solid_align (h.imp (mt sorted_eq_nil.mp) (mt sorted_eq_nil.mp))
    have hold := flatMap_old_align (sorted old) (sorted new)
    have hnew := flatMap_new_align (sorted old) (sorted new)
    have hruns := Run.collect_eq_between hs [] [] (by rw [hold]; exact nodup_sorted ho)
      (by rw [hnew]; exact nodup_sorted hn)
    rw [hold, hnew] at hruns
    rw [compareEnumValues, enumRuns_eq_collect h, hruns]
    rfl
  · obtain ⟨rfl, rfl⟩ : old = [] ∧ new = [] := by simpa using h
    rw [compareEnumValues, enumRuns_nil, keptValues, sorted_eq_nil.mpr rfl, align_nil]
    rfl

end Records

end Comparison
end ApiSurface
