import ApiSurface.Proofs.Entries
import ApiSurface.Proofs.EnumDifference

/-! When a comparison reports nothing. It does so exactly for structures whose declarations agree
name by name, where a declaration on one side only must have nothing to report. -/
namespace ApiSurface

/-- A declaration that is not reported when it stands on one side only. -/
inductive Declaration.Silent : Declaration → Prop
  | enumeration (name : String) : Silent (.enumeration name [])
  | container {d : Declaration} (kind : d.kind.isContainer)
      (members : ∀ name m, lastNamed? name d.members = some m → Silent m) : Silent d

/-- Two entries of one name that make no difference. -/
inductive Linked.Agrees : Option Linked → Option Linked → Prop
  | absent : Agrees none none
  | removed {o : Linked} (silent : o.declaration.Silent) : Agrees (some o) none
  | added {n : Linked} (silent : n.declaration.Silent) : Agrees none (some n)
  | leaves {o n : Linked} (kind : o.kind = n.kind) (leaf : n.kind.isLeaf)
      (display : o.display = n.display) : Agrees (some o) (some n)
  | enumerations {o n : Linked} (old : o.kind = .enumeration) (new : n.kind = .enumeration)
      (values : o.declaration.values.Perm n.declaration.values) : Agrees (some o) (some n)
  | containers {o n : Linked} (kind : o.kind = n.kind) (container : n.kind.isContainer)
      (members : ∀ name, Agrees (o.member? name) (n.member? name)) : Agrees (some o) (some n)

/-- Two structures that declare the same, up to the order of siblings and of values. -/
def Structure.Equivalent (old new : Structure) : Prop :=
  ∀ name, Linked.Agrees (old.named? name) (new.named? name)

namespace Declaration

theorem silent_of_enumeration {d : Declaration} (h : d.kind = .enumeration) :
    d.Silent ↔ d.values = [] := by
  constructor
  · intro hs
    cases hs with
    | enumeration name => rfl
    | container kind members => exact absurd h (Kind.ne_enumeration_of_isContainer kind)
  · intro hv
    cases d with
    | enumeration n vs =>
      obtain rfl : vs = [] := hv
      exact .enumeration n
    | _ => cases h

theorem silent_of_isContainer {d : Declaration} (h : d.kind.isContainer) :
    d.Silent ↔ ∀ name m, lastNamed? name d.members = some m → m.Silent := by
  constructor
  · intro hs
    cases hs with
    | enumeration name => cases h
    | container kind members => exact members
  · exact .container h

theorem not_silent_of_isLeaf {d : Declaration} (h : d.kind.isLeaf) : ¬ d.Silent := by
  intro hs
  cases hs with
  | enumeration name => cases h
  | container kind members => exact Kind.not_isContainer_of_isLeaf h kind

end Declaration

namespace Linked

theorem agrees_none_right (o : Linked) : Agrees (some o) none ↔ o.declaration.Silent :=
  ⟨fun h => by cases h; assumption, .removed⟩

theorem agrees_none_left (n : Linked) : Agrees none (some n) ↔ n.declaration.Silent :=
  ⟨fun h => by cases h; assumption, .added⟩

/-- The members of a container are silent if each of them agrees with nothing. -/
theorem silent_iff_members_right {o : Linked} (h : o.kind.isContainer) :
    o.declaration.Silent ↔ ∀ name, Agrees (o.member? name) none := by
  rw [Declaration.silent_of_isContainer h]
  refine forall_congr' fun name => ?_
  cases hm : Declaration.lastNamed? name o.declaration.members with
  | none => simp [member?, hm, Agrees.absent]
  | some m => simp [member?, hm, agrees_none_right]

theorem silent_iff_members_left {n : Linked} (h : n.kind.isContainer) :
    n.declaration.Silent ↔ ∀ name, Agrees none (n.member? name) := by
  rw [Declaration.silent_of_isContainer h]
  refine forall_congr' fun name => ?_
  cases hm : Declaration.lastNamed? name n.declaration.members with
  | none => simp [member?, hm, Agrees.absent]
  | some m => simp [member?, hm, agrees_none_left]

section

variable {o n : Linked} (h : o.kind = n.kind)
include h

theorem agrees_iff_of_enumeration (he : n.kind = .enumeration) :
    Agrees (some o) (some n) ↔ o.declaration.values.Perm n.declaration.values := by
  refine ⟨fun ha => ?_, .enumerations (h.trans he) he⟩
  cases ha with
  | leaves kind leaf display => exact absurd he (Kind.ne_enumeration_of_isLeaf leaf)
  | enumerations old new values => exact values
  | containers kind container members =>
    exact absurd he (Kind.ne_enumeration_of_isContainer container)

theorem agrees_iff_of_isLeaf (hl : n.kind.isLeaf) :
    Agrees (some o) (some n) ↔ o.display = n.display := by
  refine ⟨fun ha => ?_, .leaves h hl⟩
  cases ha with
  | leaves kind leaf display => exact display
  | enumerations old new values => exact absurd new (Kind.ne_enumeration_of_isLeaf hl)
  | containers kind container members => exact absurd container (Kind.not_isContainer_of_isLeaf hl)

theorem agrees_iff_of_isContainer (hc : n.kind.isContainer) :
    Agrees (some o) (some n) ↔ ∀ name, Agrees (o.member? name) (n.member? name) := by
  refine ⟨fun ha => ?_, .containers h hc⟩
  cases ha with
  | leaves kind leaf display => exact absurd hc (Kind.not_isContainer_of_isLeaf leaf)
  | enumerations old new values => exact absurd new (Kind.ne_enumeration_of_isContainer hc)
  | containers kind container members => exact members

end

theorem kind_eq_of_agrees {o n : Linked} (h : Agrees (some o) (some n)) : o.kind = n.kind := by
  cases h with
  | leaves kind leaf display => exact kind
  | enumerations old new values => exact old.trans new.symm
  | containers kind container members => exact kind

end Linked

namespace Comparison

open Linked

section KindsAgree

variable (dedupe : Bool) {old new : Option Linked} (h : KindsAgree old new) {k : Kind}
  (hk : (old.or new).map (·.kind) = some k)
include h hk

theorem compareEntries_eq_nil_of_enumeration (he : k = .enumeration) :
    compareEntries dedupe old new = [] ↔ compareEnumerations old new = [] := by
  have hd : ¬ Descends old new := by
    rw [descends_iff_isContainer h hk, he]
    exact Bool.false_ne_true
  rw [compareEntries_eq_nil_iff, ownChanges_eq h hk, if_pos he]
  simp [hd]

theorem compareEntries_eq_nil_of_isLeaf (hl : k.isLeaf) :
    compareEntries dedupe old new = [] ↔ compareLeaves old new = [] := by
  have hd : ¬ Descends old new := by
    rw [descends_iff_isContainer h hk]
    exact Kind.not_isContainer_of_isLeaf hl
  rw [compareEntries_eq_nil_iff, ownChanges_eq h hk,
    if_neg (Kind.ne_enumeration_of_isLeaf hl), if_pos hl]
  simp [hd]

theorem compareEntries_eq_nil_of_isContainer (hc : k.isContainer) :
    compareEntries dedupe old new = [] ↔
      ∀ n, compareEntries dedupe (old.bind (·.member? n)) (new.bind (·.member? n)) = [] := by
  have hd : Descends old new := (descends_iff_isContainer h hk).mpr hc
  have hl : ¬ k.isLeaf := fun hl => Kind.not_isContainer_of_isLeaf hl hc
  rw [compareEntries_eq_nil_iff, ownChanges_eq h hk,
    if_neg (Kind.ne_enumeration_of_isContainer hc), if_neg hl]
  simp [hd]

end KindsAgree

theorem ownChanges_ne_nil_of_kind_ne {o n : Linked} (h : o.kind ≠ n.kind) :
    ownChanges (some o) (some n) ≠ [] := by simp [ownChanges, kindChange, h]

/-- Two entries report nothing exactly if they agree. -/
theorem compareEntries_eq_nil_iff_agrees (dedupe : Bool) (old new : Option Linked) :
    compareEntries dedupe old new = [] ↔ Agrees old new := by
  induction old, new using entries_induction with
  | step old new ih =>
    match old, new with
    | none, none => simp [compareEntries_none, Agrees.absent]
    | some o, none =>
      have ha := kindsAgree_none_right (some o)
      rw [agrees_none_right]
      rcases o.kind.sort_of with hk | hk | hk
      · rw [compareEntries_eq_nil_of_enumeration dedupe ha rfl hk, compareEnumerations,
          compareEnumValues_eq_nil_iff, List.perm_nil, Declaration.silent_of_enumeration hk]
      · rw [compareEntries_eq_nil_of_isLeaf dedupe ha rfl hk]
        simp [compareLeaves, Declaration.not_silent_of_isLeaf hk]
      · rw [compareEntries_eq_nil_of_isContainer dedupe ha rfl hk, silent_iff_members_right hk]
        exact forall_congr' (ih ((descends_iff_isContainer ha rfl).mpr hk))
    | none, some n =>
      have ha := kindsAgree_none_left (some n)
      rw [agrees_none_left]
      rcases n.kind.sort_of with hk | hk | hk
      · rw [compareEntries_eq_nil_of_enumeration dedupe ha rfl hk, compareEnumerations,
          compareEnumValues_eq_nil_iff, List.nil_perm, Declaration.silent_of_enumeration hk]
      · rw [compareEntries_eq_nil_of_isLeaf dedupe ha rfl hk]
        simp [compareLeaves, Declaration.not_silent_of_isLeaf hk]
      · rw [compareEntries_eq_nil_of_isContainer dedupe ha rfl hk, silent_iff_members_left hk]
        exact forall_congr' (ih ((descends_iff_isContainer ha rfl).mpr hk))
    | some o, some n =>
      by_cases h : o.kind = n.kind
      · have ha := kindsAgree_some_some h
        have hkind : ((some o).or (some n)).map (·.kind) = some n.kind := congrArg some h
        rcases n.kind.sort_of with hk | hk | hk
        · rw [compareEntries_eq_nil_of_enumeration dedupe ha hkind hk, compareEnumerations,
            compareEnumValues_eq_nil_iff, agrees_iff_of_enumeration h hk]
        · rw [compareEntries_eq_nil_of_isLeaf dedupe ha hkind hk, agrees_iff_of_isLeaf h hk]
          by_cases hd : o.display = n.display <;> simp [compareLeaves, hd]
        · rw [compareEntries_eq_nil_of_isContainer dedupe ha hkind hk,
            agrees_iff_of_isContainer h hk]
          exact forall_congr' (ih ((descends_iff_isContainer ha hkind).mpr hk))
      · have hne := ownChanges_ne_nil_of_kind_ne h
        rw [compareEntries_eq_nil_iff]
        exact ⟨fun hn => absurd hn.1 hne, fun ha => absurd (kind_eq_of_agrees ha) h⟩

theorem agrees_refl (l : Option Linked) : Agrees l l := by
  have h : ∀ old new : Option Linked, old = new → Agrees old new := by
    intro old new
    induction old, new using entries_induction with
    | step old new ih =>
      rintro rfl
      cases old with
      | none => exact .absent
      | some l =>
        rcases l.kind.sort_of with hk | hk | hk
        · exact .enumerations hk hk (List.Perm.refl _)
        · exact .leaves rfl hk rfl
        · have hd := (descends_iff_isContainer (kindsAgree_some_some rfl) rfl).mpr hk
          exact .containers rfl hk fun n => ih hd n rfl
  exact h l l rfl

theorem compare_eq_nil_iff (dedupe : Bool) (old new : Structure) :
    compare dedupe old new = [] ↔ old.Equivalent new := by
  rw [compare, compareIndexes_eq_nil_iff]
  simp only [Index.get?_ofStructure, compareEntries_eq_nil_iff_agrees]
  rfl

/-- A comparison reports nothing exactly for equivalent structures. In particular it reports nothing
between a structure and itself. -/
theorem compare_eq_nil_iff_equivalent (dedupe : Bool) (old new : Structure) :
    (compare dedupe old new = [] ↔ old.Equivalent new) ∧ compare dedupe old old = [] :=
  ⟨compare_eq_nil_iff dedupe old new,
    (compare_eq_nil_iff dedupe old old).mpr fun _ => agrees_refl _⟩

end Comparison
end ApiSurface
