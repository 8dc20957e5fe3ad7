import Mathlib
import ApiSurface.Version

/-! The order of versions. Versions are compared part by part and only equal ones come out equal;
texts are preordered, those that are no versions being equal to each other and before all others. -/
namespace ApiSurface

open Std

/-- Values compared by one part of them. -/
theorem transCmp_part {α β : Type} (cmp : α → α → Ordering) [TransCmp cmp] (part : β → α) :
    TransCmp fun a b => cmp (part a) (part b) where
  eq_swap := OrientedCmp.eq_swap
  isLE_trans := TransCmp.isLE_trans

section Missing

variable {α : Type} (cmp : α → α → Ordering)

/-- An order on values of which some are missing: these come first. -/
def compareMissing : Option α → Option α → Ordering
  | some a, some b => cmp a b
  | none, some _ => .lt
  | some _, none => .gt
  | none, none => .eq

instance [TransCmp cmp] : TransCmp (compareMissing cmp) where
  eq_swap {a b} := by
    cases a with
    | none => cases b <;> rfl
    | some a =>
      cases b with
      | none => rfl
      | some b =>
        have hab : cmp a b = (cmp b a).swap := OrientedCmp.eq_swap
        exact hab
  isLE_trans {a b c} hab hbc := by
    cases a with
    | none => cases c <;> rfl
    | some a =>
      cases b with
      | none => cases hab
      | some b =>
        cases c with
        | none => cases hbc
        | some c =>
          have hac : (cmp a c).isLE := TransCmp.isLE_trans hab hbc
          exact hac

instance [LawfulEqCmp cmp] : LawfulEqCmp (compareMissing cmp) where
  compare_self {a} := by
    cases a with
    | none => rfl
    | some a =>
      have ha : cmp a a = .eq := ReflCmp.compare_self
      exact ha
  eq_of_compare {a b} h := by
    cases a with
    | none =>
      cases b with
      | none => rfl
      | some b => cases h
    | some a =>
      cases b with
      | none => cases h
      | some b =>
        have hab : cmp a b = .eq := h
        rw [LawfulEqCmp.eq_of_compare hab]

end Missing

namespace Semver

instance : TransCmp Semver.compare :=
  inferInstanceAs (TransCmp (compareLex (compareLex (compareOn major) (compareOn minor))
    (compareOn patch)))

instance : LawfulEqCmp Semver.compare where
  eq_of_compare {a b} h := by
    have hparts : (a.major = b.major ∧ a.minor = b.minor) ∧ a.patch = b.patch := by
      simpa only [Semver.compare, Ordering.then_eq_eq, LawfulEqOrd.compare_eq_iff_eq] using h
    obtain ⟨⟨hmajor, hminor⟩, hpatch⟩ := hparts
    cases a
    cases b
    simp_all

theorem compareMissingLast_eq :
    compareMissingLast = fun a b => compareMissing (fun x y => Semver.compare y x) b a := by
  funext a b
  cases a <;> cases b <;> rfl

instance : TransCmp compareMissingLast := by
  have hopposite : TransCmp fun x y => Semver.compare y x := TransCmp.opposite
  rw [compareMissingLast_eq]
  exact TransCmp.opposite

theorem eq_of_compareMissingLast {a b : Option Semver} (h : compareMissingLast a b = .eq) :
    a = b := by
  have hopposite : LawfulEqCmp fun x y => Semver.compare y x := LawfulEqCmp.opposite
  rw [compareMissingLast_eq] at h
  exact (LawfulEqCmp.eq_of_compare h).symm

end Semver

namespace Version

theorem Tag.rank_injective : Function.Injective Tag.rank := by
  intro a b h
  cases a <;> cases b <;> simp_all [Tag.rank]

theorem Build.rank_injective : Function.Injective Build.rank := by
  intro a b h
  cases a <;> cases b <;> simp_all [Build.rank]

theorem Build.compareMissingFirst_eq :
    Build.compareMissingFirst = compareMissing (compareOn Build.rank) := by
  funext a b
  cases a <;> cases b <;> rfl

instance : TransCmp Build.compareMissingFirst := by
  rw [Build.compareMissingFirst_eq]
  infer_instance

theorem Build.eq_of_compareMissingFirst {a b : Option Build}
    (h : Build.compareMissingFirst a b = .eq) : a = b := by
  cases a with
  | none =>
    cases b with
    | none => rfl
    | some b => cases h
  | some a =>
    cases b with
    | none => cases h
    | some b =>
      have hrank : a.rank = b.rank := LawfulEqOrd.eq_of_compare h
      rw [Build.rank_injective hrank]

instance : TransCmp Version.compare := by
  have hsemver := transCmp_part Semver.compare semver
  have hgame := transCmp_part Semver.compareMissingLast game
  have hbuild := transCmp_part Build.compareMissingFirst build
  exact inferInstanceAs (TransCmp (compareLex (compareLex (compareLex (compareLex
    (fun a b => a.semver.compare b.semver) (compareOn fun v => v.tag.rank))
    (fun a b => Semver.compareMissingLast a.game b.game))
    (fun a b => Build.compareMissingFirst a.build b.build)) (compareOn revision)))

instance : LawfulEqCmp Version.compare where
  eq_of_compare {a b} h := by
    simp only [Version.compare, Ordering.then_eq_eq] at h
    obtain ⟨⟨⟨⟨hsemver, htag⟩, hgame⟩, hbuild⟩, hrevision⟩ := h
    have hsemver : a.semver = b.semver := LawfulEqCmp.eq_of_compare hsemver
    have htag : a.tag = b.tag := Tag.rank_injective (LawfulEqOrd.eq_of_compare htag)
    have hgame : a.game = b.game := Semver.eq_of_compareMissingLast hgame
    have hbuild : a.build = b.build := Build.eq_of_compareMissingFirst hbuild
    have hrevision : a.revision = b.revision := LawfulEqOrd.eq_of_compare hrevision
    cases a
    cases b
    simp_all

/-! Texts. -/

theorem compareTexts_eq (a b : String) :
    compareTexts a b = compareMissing Version.compare (parse? a) (parse? b) := by
  rw [compareTexts, compareMissing.eq_def]
  cases parse? a <;> cases parse? b <;> rfl

instance : TransCmp compareTexts := by
  have h := transCmp_part (compareMissing Version.compare) parse?
  simpa only [← compareTexts_eq] using h

/-- Equal texts are both no versions, or both the same version. -/
theorem compareTexts_eq_eq {a b : String} : compareTexts a b = .eq ↔ parse? a = parse? b := by
  rw [compareTexts_eq]
  exact LawfulEqCmp.compare_eq_iff_eq

theorem compareTexts_swap (a b : String) : compareTexts a b = (compareTexts b a).swap :=
  OrientedCmp.eq_swap

theorem compareTexts_isLE_trans {a b c : String} (hab : (compareTexts a b).isLE)
    (hbc : (compareTexts b c).isLE) : (compareTexts a c).isLE :=
  TransCmp.isLE_trans hab hbc

theorem compareTexts_lt_trans {a b c : String} (hab : compareTexts a b = .lt)
    (hbc : compareTexts b c = .lt) : compareTexts a c = .lt :=
  TransCmp.lt_trans hab hbc

theorem compareTexts_lt_irrefl (a : String) : compareTexts a a ≠ .lt := by
  rw [compareTexts_eq_eq.mpr rfl]
  exact nofun

theorem compareTexts_isLE_total (a b : String) :
    (compareTexts a b).isLE ∨ (compareTexts b a).isLE := by
  rw [compareTexts_swap b a]
  cases compareTexts a b <;> simp

/-! Sorting. -/

section Sorting

variable {α : Type} (text : α → String) (xs : List α)

theorem sortOn_perm : (sortOn text xs).Perm xs := List.mergeSort_perm xs _

theorem pairwise_sortOn :
    (sortOn text xs).Pairwise fun a b => (compareTexts (text a) (text b)).isLE := by
  apply List.pairwise_mergeSort
  · intro a b c hab hbc
    exact compareTexts_isLE_trans hab hbc
  · intro a b
    rw [Bool.or_eq_true]
    exact compareTexts_isLE_total (text a) (text b)

end Sorting

end Version
end ApiSurface
