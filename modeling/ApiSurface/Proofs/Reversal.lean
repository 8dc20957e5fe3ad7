import ApiSurface.Proofs.KeptRuns
import ApiSurface.Proofs.PathDifference

/-! A comparison in the other direction. It reports the same records with their sides exchanged, if
no container stands for a leaf and no enumeration holds a value twice, and as far as the alignments
of enumerations keep the same values in both directions. Not all do: of a value between two that are
added it depends on the direction whether it is kept. -/
namespace ApiSurface

/-- A change as it looks from the new side. -/
def Change.mirror : Change → Change
  | added g d n => removed g d n
  | removed g d o => added g d o
  | changed g d o n => changed g d n o
  | separator => separator

namespace Change

@[simp] theorem mirror_mirror (c : Change) : c.mirror.mirror = c := by cases c <;> rfl

theorem new?_mirror (c : Change) : c.mirror.new? = c.old? := by cases c <;> rfl

end Change

namespace Comparison

open Edit Declaration

/-! Enumerations. -/

/-- Records of a rename block depend on the direction only by their sides. -/
theorem map_mirror_pairOff (name : String) (os ns : List String) :
    (pairOff name name os ns).map Change.mirror = pairOff name name ns os := by
  induction os generalizing ns with
  | nil => simp [pairOff, Change.mirror]
  | cons o os ih =>
    cases ns with
    | nil => simp [pairOff, Change.mirror]
    | cons n ns => rw [pairOff_cons_cons, pairOff_cons_cons, List.map_cons, ih, Change.mirror]

theorem map_mirror_ofRuns_between (name : String) (vs old new : List String) :
    (ofRuns name name (Run.between vs old new)).map Change.mirror =
      ofRuns name name (Run.between vs new old) := by
  induction vs generalizing old new with
  | nil => rw [ofRuns_between_nil, ofRuns_between_nil, map_mirror_pairOff]
  | cons v vs ih =>
    rw [ofRuns_between_cons, ofRuns_between_cons, List.map_append, map_mirror_pairOff, ih]

/-- Two lists of values of which the same are kept in both directions. -/
def Reversible (old new : List String) : Prop := keptValues new old = keptValues old new

instance (old new : List String) : Decidable (Reversible old new) :=
  inferInstanceAs (Decidable (_ = _))

theorem keptValues_sublist_left (old new : List String) :
    (keptValues old new).Sublist (sorted old) := by
  have h := kept_sublist_old (align (sorted old) (sorted new))
  rwa [flatMap_old_align] at h

theorem keptValues_sublist_right (old new : List String) :
    (keptValues old new).Sublist (sorted new) := by
  have h := kept_sublist_new (align (sorted old) (sorted new))
  rwa [flatMap_new_align] at h

/-- A list without values has nothing to keep. -/
theorem reversible_nil (new : List String) : Reversible [] new := by
  have h : ∀ vs : List String, vs.Sublist (sorted []) → vs = [] := fun vs hs =>
    List.sublist_nil.mp (by simpa [sorted] using hs)
  rw [Reversible, h _ (keptValues_sublist_right new []), h _ (keptValues_sublist_left [] new)]

/-- What is kept is in order, so it is the same if it is the same as a multiset. -/
theorem reversible_of_coe_eq {old new : List String}
    (h : (keptValues new old : Multiset String) = keptValues old new) : Reversible old new :=
  List.Perm.eq_of_pairwise' ((pairwise_sorted old).sublist (keptValues_sublist_right new old))
    ((pairwise_sorted old).sublist (keptValues_sublist_left old new)) (Multiset.coe_eq_coe.mp h)

/-- Alignments that keep as much as can be kept keep the same values. -/
theorem reversible_of_isLongest {old new : List String}
    (h : IsLongest (align (sorted old) (sorted new)))
    (h' : IsLongest (align (sorted new) (sorted old))) : Reversible old new := by
  refine reversible_of_coe_eq ?_
  rw [keptValues, keptValues, (isLongest_align_sorted_iff old new).mp h,
    (isLongest_align_sorted_iff new old).mp h', Multiset.inter_comm]

/-- The records of a reversible pair without repeated values, in order. -/
theorem compareEnumValues_reverse (name : String) {old new : List String} (ho : old.Nodup)
    (hn : new.Nodup) (h : Reversible old new) :
    compareEnumValues name new name old =
      (compareEnumValues name old name new).map Change.mirror := by
  rw [compareEnumValues_eq_ofRuns_between name name ho hn,
    compareEnumValues_eq_ofRuns_between name name hn ho, map_mirror_ofRuns_between, h]

/-- The values on the old side of the records are those that are not kept. -/
theorem coe_sorted_eq (name : String) (old new : List String) :
    ((sorted old).map (enumValue name) : Multiset String) =
      (keptValues old new).map (enumValue name) +
        ((compareEnumValues name old name new).filterMap Change.old? : Multiset String) := by
  rw [filterMap_old_compareEnumValues, Multiset.coe_add, ← List.map_append, ← Multiset.map_coe,
    ← Multiset.map_coe, keptValues, ← Multiset.coe_add, ← coe_old, flatMap_old_align]

/-- The same for the new side. -/
theorem coe_sorted_eq_right (name : String) (old new : List String) :
    ((sorted new).map (enumValue name) : Multiset String) =
      (keptValues old new).map (enumValue name) +
        ((compareEnumValues name old name new).filterMap Change.new? : Multiset String) := by
  rw [filterMap_new_compareEnumValues, Multiset.coe_add, ← List.map_append, ← Multiset.map_coe,
    ← Multiset.map_coe, keptValues, ← Multiset.coe_add, ← coe_new, flatMap_new_align]

/-- Only if the same values are kept are the records of one direction those of the other one. -/
theorem compareEnumValues_reverse_perm_iff (name : String) {old new : List String} (ho : old.Nodup)
    (hn : new.Nodup) :
    (compareEnumValues name new name old).Perm
        ((compareEnumValues name old name new).map Change.mirror) ↔ Reversible old new := by
  constructor
  · intro h
    have hsides := h.filterMap Change.new?
    rw [List.filterMap_map] at hsides
    have hold : Change.new? ∘ Change.mirror = Change.old? := funext Change.new?_mirror
    rw [hold, ← Multiset.coe_eq_coe] at hsides
    have hkept := (coe_sorted_eq_right name new old).symm.trans (coe_sorted_eq name old new)
    rw [hsides] at hkept
    have hkept := add_right_cancel hkept
    rw [← Multiset.map_coe, ← Multiset.map_coe] at hkept
    exact reversible_of_coe_eq (Multiset.map_injective (enumValue_injective name) hkept)
  · intro h
    rw [compareEnumValues_reverse name ho hn h]

/-! Entries. -/

/-- No container on one side and leaf on the other one. -/
def Matchable (old new : Option Linked) : Prop :=
  ∀ o n, old = some o → new = some n →
    ¬ (o.kind.isContainer ∧ n.kind.isLeaf) ∧ ¬ (o.kind.isLeaf ∧ n.kind.isContainer)

theorem matchable_none (new : Option Linked) : Matchable none new := fun _ _ h => nomatch h

instance : (old new : Option Linked) → Decidable (Matchable old new)
  | none, new => .isTrue (matchable_none new)
  | some _, none => .isTrue fun _ _ _ h => nomatch h
  | some o, some n => decidable_of_iff
      (¬ (o.kind.isContainer ∧ n.kind.isLeaf) ∧ ¬ (o.kind.isLeaf ∧ n.kind.isContainer)) <| by
        refine ⟨?_, fun h => h o n rfl rfl⟩
        rintro h _ _ ⟨⟩ ⟨⟩
        exact h

/-- What is needed at a path for its records to depend on the direction only by their sides. -/
structure Mirrored (old new : Option Linked) : Prop where
  kinds : Matchable old new
  oldValues : (enumValues old).Nodup
  newValues : (enumValues new).Nodup
  kept : Reversible (enumValues old) (enumValues new)

theorem route?_reverse {old new : Option Linked} (h : Matchable old new) :
    route? (new.map (·.kind)) (old.map (·.kind)) =
      route? (old.map (·.kind)) (new.map (·.kind)) := by
  cases old with
  | none =>
    cases new with
    | none => rfl
    | some n => cases hn : n.kind <;> simp [route?, hn, Kind.isContainer, Kind.isLeaf]
  | some o =>
    cases new with
    | none => cases ho : o.kind <;> simp [route?, ho, Kind.isContainer, Kind.isLeaf]
    | some n =>
      have hk := h o n rfl rfl
      cases ho : o.kind <;> cases hn : n.kind <;>
        simp [route?, ho, hn, Kind.isContainer, Kind.isLeaf] at hk ⊢

section Entries

variable {p : List String} {old new : Option Linked} (ho : StandsAt p old) (hn : StandsAt p new)
include ho hn

theorem kindChange_reverse : kindChange new old = (kindChange old new).map Change.mirror := by
  cases old with
  | none => cases new <;> rfl
  | some o =>
    cases new with
    | none => rfl
    | some n =>
      have hname : n.name = o.name := (hn n rfl).1.trans (ho o rfl).1.symm
      simp only [kindChange, hname]
      by_cases hk : o.kind = n.kind
      · simp [hk]
      · simp [hk, Ne.symm hk, Change.mirror]

theorem compareLeaves_reverse :
    compareLeaves new old = (compareLeaves old new).map Change.mirror := by
  rw [compareLeaves_eq ho hn, compareLeaves_eq hn ho]
  cases old with
  | none => cases new <;> rfl
  | some o =>
    cases new with
    | none => rfl
    | some n =>
      by_cases hd : o.display = n.display
      · simp [textChanges, hd]
      · simp [textChanges, hd, Ne.symm hd, Change.mirror]

theorem compareEnumerations_reverse (h : Mirrored old new) :
    compareEnumerations new old = (compareEnumerations old new).map Change.mirror := by
  have hc := compareEnumValues_reverse (nameOf p) h.oldValues h.newValues h.kept
  cases old with
  | none =>
    cases new with
    | none => rfl
    | some n => simpa [compareEnumerations, enumValues, (hn n rfl).1] using hc
  | some o =>
    cases new with
    | none => simpa [compareEnumerations, enumValues, (ho o rfl).1] using hc
    | some n => simpa [compareEnumerations, enumValues, (ho o rfl).1, (hn n rfl).1] using hc

theorem ownChanges_reverse (h : Mirrored old new) :
    ownChanges new old = (ownChanges old new).map Change.mirror := by
  rw [ownChanges, ownChanges, route?_reverse h.kinds, kindChange_reverse ho hn,
    compareLeaves_reverse ho hn, compareEnumerations_reverse ho hn h, List.map_append]
  split <;> rfl

end Entries

theorem descends_reverse {old new : Option Linked} (h : Matchable old new) :
    Descends new old ↔ Descends old new := by
  rw [Descends, Descends, route?_reverse h]

theorem map_mirror_close (cs : List Change) :
    (close cs).map Change.mirror = close (cs.map Change.mirror) := by
  cases cs with
  | nil => rfl
  | cons c cs => simp [close, Change.mirror]

theorem close_perm {cs ds : List Change} (h : cs.Perm ds) : (close cs).Perm (close ds) := by
  cases cs with
  | nil => rw [List.nil_perm.mp h]
  | cons c cs =>
    cases ds with
    | nil => exact absurd h.length_eq (by simp)
    | cons d ds => exact h.append_right _

/-- Both directions visit the same names equally often. -/
theorem names_reverse_perm (dedupe : Bool) {i j : Index} (hi : i.names.Nodup)
    (hj : j.names.Nodup) : (names dedupe j i).Perm (names dedupe i j) := by
  cases dedupe with
  | false => exact List.perm_append_comm
  | true =>
    refine (List.perm_ext_iff_of_nodup (nodup_names hj hi) (nodup_names hi hj)).mpr fun n => ?_
    rw [mem_names, mem_names, or_comm]

theorem compareIndexes_reverse_perm (dedupe : Bool) {i j : Index} (hi : i.names.Nodup)
    (hj : j.names.Nodup)
    (h : ∀ n, (compareEntries dedupe (j.get? n) (i.get? n)).Perm
      ((compareEntries dedupe (i.get? n) (j.get? n)).map Change.mirror)) :
    (compareIndexes dedupe j i).Perm ((compareIndexes dedupe i j).map Change.mirror) := by
  rw [compareIndexes, compareIndexes, List.map_flatMap]
  exact ((names_reverse_perm dedupe hi hj).flatMap_right _).trans
    (List.Perm.flatMap_left _ fun n _ => h n)

/-- One step reports the same from both sides, and it goes on with members at one path. -/
theorem compareEntries_reverse_perm (dedupe : Bool) {old new : Structure}
    (h : ∀ p, Mirrored (old.at? p) (new.at? p)) {p : List String} (hp : p ≠ []) :
    (compareEntries dedupe (new.at? p) (old.at? p)).Perm
      ((compareEntries dedupe (old.at? p) (new.at? p)).map Change.mirror) := by
  generalize ho : old.at? p = o
  generalize hn : new.at? p = n
  induction o, n using entries_induction generalizing p with
  | step o n ih =>
    have hm : Mirrored o n := ho ▸ hn ▸ h p
    have hown : ownChanges n o = (ownChanges o n).map Change.mirror :=
      ownChanges_reverse (ho ▸ standsAt_at? old p) (hn ▸ standsAt_at? new p) hm
    have hmembers : (memberChanges dedupe n o).Perm
        ((memberChanges dedupe o n).map Change.mirror) := by
      rw [memberChanges, memberChanges, if_congr (descends_reverse hm.kinds) rfl rfl]
      split_ifs with hd
      · refine compareIndexes_reverse_perm dedupe (Index.nodup_names_ofMembers _)
          (Index.nodup_names_ofMembers _) fun m => ?_
        rw [Index.get?_ofMembers, Index.get?_ofMembers]
        refine ih hd m (p := p ++ [m]) (by simp) ?_ ?_
        · rw [Structure.at?_concat old hp, ho]
        · rw [Structure.at?_concat new hp, hn]
      · exact List.Perm.refl _
    rw [compareEntries_eq, compareEntries_eq, List.map_append, map_mirror_close, hown]
    exact (close_perm hmembers).append_left _

/-! The comparison of two structures. -/

/-- Without containers that stand for leaves and without repeated values, a comparison in the other
direction reports the same records with their sides exchanged, provided that every two enumerations
at one path keep the same values in both directions. Those that do not report something else, and
those whose alignments are longest ones do. -/
theorem compare_reverse_perm (dedupe : Bool) {old new : Structure}
    (hkinds : ∀ p, Matchable (old.at? p) (new.at? p))
    (hold : ∀ p, (enumValues (old.at? p)).Nodup) (hnew : ∀ p, (enumValues (new.at? p)).Nodup) :
    ((∀ p, Reversible (enumValues (old.at? p)) (enumValues (new.at? p))) →
      (compare dedupe new old).Perm ((compare dedupe old new).map Change.mirror)) ∧
    (∀ p, (compareEnumValues (nameOf p) (enumValues (new.at? p)) (nameOf p)
          (enumValues (old.at? p))).Perm
        ((compareEnumValues (nameOf p) (enumValues (old.at? p)) (nameOf p)
          (enumValues (new.at? p))).map Change.mirror) ↔
      Reversible (enumValues (old.at? p)) (enumValues (new.at? p))) ∧
    ∀ p, IsLongest (align (sorted (enumValues (old.at? p))) (sorted (enumValues (new.at? p)))) →
      IsLongest (align (sorted (enumValues (new.at? p))) (sorted (enumValues (old.at? p)))) →
      Reversible (enumValues (old.at? p)) (enumValues (new.at? p)) := by
  refine ⟨?_, ?_, ?_⟩
  · intro hkept
    have h : ∀ p, Mirrored (old.at? p) (new.at? p) := fun p =>
      ⟨hkinds p, hold p, hnew p, hkept p⟩
    refine compareIndexes_reverse_perm dedupe (Index.nodup_names_ofStructure old)
      (Index.nodup_names_ofStructure new) fun n => ?_
    rw [Index.get?_ofStructure, Index.get?_ofStructure]
    exact compareEntries_reverse_perm dedupe h (p := [n]) (List.cons_ne_nil n [])
  · intro p
    exact compareEnumValues_reverse_perm_iff (nameOf p) (hold p) (hnew p)
  · intro p hforth hback
    exact reversible_of_isLongest hforth hback

/-- What holds of nothing and at the paths of a structure holds at all paths. -/
theorem forall_at? {s : Structure} {motive : List String → Option Linked → Prop}
    (absent : ∀ p, motive p none) (present : ∀ p ∈ s.paths, motive p (s.at? p)) (p : List String) :
    motive p (s.at? p) := by
  by_cases hp : p ∈ s.paths
  · exact present p hp
  · rw [Structure.mem_paths, Option.not_isSome_iff_eq_none] at hp
    exact hp ▸ absent p

/-- A class with an enumeration in it, and an enumeration beside it. -/
def unitsBefore : Structure :=
  [.classType "Shape" [.enumeration "Mode" ["Fill"], .property "area" "number"] none,
    .enumeration "Unit" ["Meter"]]

/-- The same names: the class is an interface now, and the enumeration a class. -/
def unitsAfter : Structure :=
  [.interface "Shape" [.enumeration "Mode" ["Line", "Fill"], .property "area" "string"] [],
    .classType "Unit" [.property "name" "string"] none]

theorem compare_reverse_perm_units :
    (∀ p, Matchable (unitsBefore.at? p) (unitsAfter.at? p)) ∧
    (∀ p, (enumValues (unitsBefore.at? p)).Nodup) ∧
    (∀ p, (enumValues (unitsAfter.at? p)).Nodup) ∧
    (∀ p, Reversible (enumValues (unitsBefore.at? p)) (enumValues (unitsAfter.at? p))) ∧
    (compare false unitsAfter unitsBefore).Perm
      ((compare false unitsBefore unitsAfter).map Change.mirror) := by
  have hkinds : ∀ p, Matchable (unitsBefore.at? p) (unitsAfter.at? p) :=
    forall_at? (motive := fun p l => Matchable l (unitsAfter.at? p)) (fun p => matchable_none _)
      (by decide)
  have hold : ∀ p, (enumValues (unitsBefore.at? p)).Nodup :=
    forall_at? (motive := fun _ l => (enumValues l).Nodup) (fun _ => List.nodup_nil) (by decide)
  have hnew : ∀ p, (enumValues (unitsAfter.at? p)).Nodup :=
    forall_at? (motive := fun _ l => (enumValues l).Nodup) (fun _ => List.nodup_nil) (by decide)
  have hpaths : unitsBefore.paths =
      {["Shape"], ["Shape", "Mode"], ["Shape", "area"], ["Unit"]} := by decide
  have hkept : ∀ p,
      Reversible (enumValues (unitsBefore.at? p)) (enumValues (unitsAfter.at? p)) := by
    refine forall_at?
      (motive := fun p l => Reversible (enumValues l) (enumValues (unitsAfter.at? p)))
      (fun p => reversible_nil _) ?_
    rw [hpaths]
    simp only [Finset.mem_insert, Finset.mem_singleton]
    rintro p (rfl | rfl | rfl | rfl)
    · cbv
    · cbv
    · cbv
    · cbv
  exact ⟨hkinds, hold, hnew, hkept, (compare_reverse_perm false hkinds hold hnew).1 hkept⟩

/-- Two values added around a shared one. From the new side both are removed and the shared one is
kept; from the old side the shared one is taken for a rename. -/
theorem not_compare_reverse_perm_between :
    (∀ p, Matchable (Structure.at? [.enumeration "Color" ["A", "C"]] p)
      (Structure.at? [.enumeration "Color" ["A", "B", "C", "D"]] p)) ∧
    (∀ p, (enumValues (Structure.at? [.enumeration "Color" ["A", "C"]] p)).Nodup) ∧
    (∀ p, (enumValues (Structure.at? [.enumeration "Color" ["A", "B", "C", "D"]] p)).Nodup) ∧
    ¬ (compare true [.enumeration "Color" ["A", "B", "C", "D"]]
        [.enumeration "Color" ["A", "C"]]).Perm
      ((compare true [.enumeration "Color" ["A", "C"]]
        [.enumeration "Color" ["A", "B", "C", "D"]]).map Change.mirror) := by
  refine ⟨?_, ?_, ?_, ?_⟩
  · exact forall_at? (motive := fun p l => Matchable l (Structure.at? _ p))
      (fun p => matchable_none _) (by decide)
  · exact forall_at? (motive := fun _ l => (enumValues l).Nodup) (fun _ => List.nodup_nil)
      (by decide)
  · exact forall_at? (motive := fun _ l => (enumValues l).Nodup) (fun _ => List.nodup_nil)
      (by decide)
  · have hback : compare true [.enumeration "Color" ["A", "B", "C", "D"]]
        [.enumeration "Color" ["A", "C"]] =
        [.removed "Color" "" "Color.B", .removed "Color" "" "Color.D"] := by cbv
    have hforth : compare true [.enumeration "Color" ["A", "C"]]
        [.enumeration "Color" ["A", "B", "C", "D"]] =
        [.changed "Color" "" "Color.C" "Color.B", .added "Color" "" "Color.C",
          .added "Color" "" "Color.D"] := by cbv
    rw [hback, hforth]
    decide

end Comparison
end ApiSurface
