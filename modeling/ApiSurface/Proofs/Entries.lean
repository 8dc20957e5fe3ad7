import ApiSurface.Comparison
import ApiSurface.Proofs.Lookup

/-! The comparison of two entries, taken apart. It is what they report by themselves, then what
their members report, and the members are less deep than the entries. -/
namespace ApiSurface

namespace Kind

/-- Every kind is compared in one of three ways. -/
theorem sort_of (k : Kind) : k = .enumeration ∨ k.isLeaf ∨ k.isContainer := by
  cases k <;> simp [isLeaf, isContainer]

theorem not_isContainer_of_isLeaf {k : Kind} (h : k.isLeaf) : ¬ k.isContainer := by
  cases k <;> simp_all [isLeaf, isContainer]

theorem ne_enumeration_of_isContainer {k : Kind} (h : k.isContainer) : k ≠ .enumeration := by
  rintro rfl
  cases h

theorem ne_enumeration_of_isLeaf {k : Kind} (h : k.isLeaf) : k ≠ .enumeration := by
  rintro rfl
  cases h

end Kind

namespace Comparison

/-- What two entries report by themselves, apart from their members. -/
def ownChanges (old new : Option Linked) : List Change :=
  kindChange old new ++
    match route? (old.map (·.kind)) (new.map (·.kind)) with
    | some .enumerations => compareEnumerations old new
    | some .leaves => compareLeaves old new
    | _ => []

/-- Two entries are compared member by member. -/
def Descends (old new : Option Linked) : Prop :=
  route? (old.map (·.kind)) (new.map (·.kind)) = some .members

instance (old new : Option Linked) : Decidable (Descends old new) :=
  inferInstanceAs (Decidable (_ = _))

/-- What the members of two entries report. -/
def memberChanges (dedupe : Bool) (old new : Option Linked) : List Change :=
  if Descends old new then
    compareIndexes dedupe (Index.ofMembers (old.map (·.declaration)))
      (Index.ofMembers (new.map (·.declaration)))
  else []

@[simp] theorem close_nil : close [] = [] := rfl

theorem close_eq_nil_iff (cs : List Change) : close cs = [] ↔ cs = [] := by
  cases cs <;> simp [close]

/-- One step of the comparison. -/
theorem compareEntries_eq (dedupe : Bool) (old new : Option Linked) :
    compareEntries dedupe old new = ownChanges old new ++ close (memberChanges dedupe old new) := by
  rw [compareEntries, ownChanges, memberChanges]
  cases h : route? (old.map (·.kind)) (new.map (·.kind)) with
  | none => simp [Descends, h]
  | some r => cases r <;> simp [Descends, h, compareIndexes]

/-- Induction on a pair of entries: each step may use the members, if the pair has any. -/
theorem entries_induction {motive : Option Linked → Option Linked → Prop}
    (step : ∀ old new,
      (Descends old new → ∀ n, motive (old.bind (·.member? n)) (new.bind (·.member? n))) →
      motive old new)
    (old new : Option Linked) : motive old new := by
  induction h : Linked.depth? old + Linked.depth? new using Nat.strong_induction_on
    generalizing old new with
  | _ d ih =>
    subst h
    refine step old new fun hd n => ih _ ?_ _ _ rfl
    simpa using depth?_members_lt n hd

theorem compareEntries_none (dedupe : Bool) : compareEntries dedupe none none = [] := by
  rw [compareEntries]
  rfl

section Names

variable (old new : Index)

theorem mem_names (dedupe : Bool) (n : String) :
    n ∈ names dedupe old new ↔ (old.get? n).isSome ∨ (new.get? n).isSome := by
  have ho := Index.mem_names old n
  have hn := Index.mem_names new n
  simp only [Index.contains] at ho hn
  cases dedupe
  · simp [names, ho, hn]
  · simp only [names, if_true, List.mem_append, List.mem_filter, ho, hn, Index.contains]
    cases (old.get? n).isSome <;> simp

variable {old new} (ho : old.names.Nodup) (hn : new.names.Nodup)
include ho hn

/-- Without duplicates every name is visited once. -/
theorem nodup_names : (names true old new).Nodup := by
  refine List.Nodup.append ho (hn.filter _) fun n h h' => ?_
  have hc := (Index.mem_names old n).mp h
  simp [hc] at h'

/-- With duplicates the names on both sides are visited once more. -/
theorem names_false_perm :
    (names false old new).Perm (names true old new ++ old.names.filter (new.contains ·)) := by
  have hs : (new.names.filter (old.contains ·)).Perm (old.names.filter (new.contains ·)) := by
    refine (List.perm_ext_iff_of_nodup (hn.filter _) (ho.filter _)).mpr fun n => ?_
    simp only [List.mem_filter, Index.mem_names]
    exact and_comm
  have hp := List.filter_append_perm (!old.contains ·) new.names
  simp only [Bool.not_not] at hp
  simp only [names, Bool.false_eq_true, if_false, if_true, List.append_assoc]
  exact (hp.symm.trans (hs.append_left _)).append_left _

end Names

/-! When two entries report nothing. -/

theorem compareIndexes_eq_nil_iff (dedupe : Bool) (old new : Index) :
    compareIndexes dedupe old new = [] ↔
      ∀ n, compareEntries dedupe (old.get? n) (new.get? n) = [] := by
  simp only [compareIndexes, List.flatMap_eq_nil_iff, mem_names]
  refine ⟨fun h n => ?_, fun h n _ => h n⟩
  cases ho : old.get? n with
  | some o => exact ho ▸ h n (by simp [ho])
  | none =>
    cases hn : new.get? n with
    | some m => exact hn ▸ ho ▸ h n (by simp [hn])
    | none => exact compareEntries_none dedupe

theorem compareEntries_eq_nil_iff (dedupe : Bool) (old new : Option Linked) :
    compareEntries dedupe old new = [] ↔ ownChanges old new = [] ∧
      (Descends old new → ∀ n,
        compareEntries dedupe (old.bind (·.member? n)) (new.bind (·.member? n)) = []) := by
  rw [compareEntries_eq, List.append_eq_nil_iff, close_eq_nil_iff, memberChanges]
  by_cases hd : Descends old new
  · simp only [hd, if_true, true_imp_iff, compareIndexes_eq_nil_iff, Index.get?_ofMembers]
  · simp [hd]

/-! Entries whose kinds agree, or of which one is absent. -/

def KindsAgree (old new : Option Linked) : Prop :=
  ∀ o n, old = some o → new = some n → o.kind = n.kind

theorem kindsAgree_none_right (o : Option Linked) : KindsAgree o none := fun _ _ _ h => nomatch h

theorem kindsAgree_none_left (n : Option Linked) : KindsAgree none n := fun _ _ h => nomatch h

theorem kindsAgree_some_some {o n : Linked} (h : o.kind = n.kind) :
    KindsAgree (some o) (some n) := by
  rintro _ _ ⟨⟩ ⟨⟩
  exact h

instance : (old new : Option Linked) → Decidable (KindsAgree old new)
  | none, new => .isTrue (kindsAgree_none_left new)
  | old, none => .isTrue (kindsAgree_none_right old)
  | some o, some n => decidable_of_iff (o.kind = n.kind)
      ⟨kindsAgree_some_some, fun h => h o n rfl rfl⟩

theorem kind_of_left {old new : Option Linked} {k : Kind}
    (hk : (old.or new).map (·.kind) = some k) (l : Linked) (hl : old = some l) : l.kind = k := by
  subst hl
  simpa using hk

section KindsAgree

variable {old new : Option Linked} (h : KindsAgree old new)
include h

theorem kind_of_right {k : Kind} (hk : (old.or new).map (·.kind) = some k) (l : Linked)
    (hl : new = some l) : l.kind = k := by
  subst hl
  cases old with
  | none => simpa using hk
  | some o => exact (h o l rfl rfl).symm.trans (kind_of_left hk o rfl)

theorem kindChange_eq_nil : kindChange old new = [] := by
  unfold kindChange
  split
  · exact if_pos (h _ _ rfl rfl)
  · rfl

/-- The way of comparison depends on the kind only. -/
theorem route?_eq {k : Kind} (hk : (old.or new).map (·.kind) = some k) :
    route? (old.map (·.kind)) (new.map (·.kind)) =
      some (if k.isContainer then .members else if k.isLeaf then .leaves else .enumerations) := by
  have he : (new.or old).map (·.kind) = some k := by
    cases old with
    | none => simpa using hk
    | some o =>
      cases new with
      | none => exact hk
      | some n => exact (congrArg some (h o n rfl rfl)).symm.trans hk
  rw [route?, ← Option.map_or, he]
  cases old with
  | none => simp
  | some o =>
    obtain rfl : o.kind = k := by simpa using hk
    cases hq : o.kind <;> simp [hq, Kind.isContainer, Kind.isLeaf]

theorem descends_iff_isContainer {k : Kind} (hk : (old.or new).map (·.kind) = some k) :
    Descends old new ↔ k.isContainer := by
  rw [Descends, route?_eq h hk]
  cases k <;> simp [Kind.isContainer, Kind.isLeaf]

theorem ownChanges_eq {k : Kind} (hk : (old.or new).map (·.kind) = some k) :
    ownChanges old new = if k = .enumeration then compareEnumerations old new
      else if k.isLeaf then compareLeaves old new else [] := by
  rw [ownChanges, kindChange_eq_nil h, route?_eq h hk]
  cases k <;> rfl

end KindsAgree

end Comparison
end ApiSurface
