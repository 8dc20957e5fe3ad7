import ApiSurface.Proofs.Entries

/-! Declarations are compared independently of one another. Where two parts of a package share no
top-level name, the records of the whole are those of the parts: the names that a comparison visits
are those it visits in the parts, and each of them stands for the same declaration as in its part.
-/
namespace ApiSurface

/-! Structures side by side. -/

/-- No declaration of one structure has the name of one of the other. -/
def Structure.Apart (s t : Structure) : Prop := ∀ d ∈ s, ∀ e ∈ t, d.name ≠ e.name

namespace Structure

theorem named?_append (s t : Structure) (n : String) :
    named? (s ++ t) n = (named? t n).or (named? s n) := by
  rw [named?, named?, named?, Declaration.lastNamed?_append, Option.map_or]

theorem exists_of_named? {s : Structure} {n : String} (h : (named? s n).isSome) :
    ∃ d ∈ s, d.name = n := by
  rw [named?, Option.isSome_map, Option.isSome_iff_exists] at h
  obtain ⟨d, hd⟩ := h
  exact ⟨d, Declaration.mem_of_lastNamed? hd, Declaration.name_of_lastNamed? hd⟩

theorem Apart.named?_right {s t : Structure} (h : Apart s t) {n : String}
    (hs : (named? s n).isSome) : named? t n = none := by
  rw [← Option.not_isSome_iff_eq_none]
  intro ht
  obtain ⟨d, hd, hn⟩ := exists_of_named? hs
  obtain ⟨e, he, hn'⟩ := exists_of_named? ht
  exact h d hd e he (hn.trans hn'.symm)

theorem Apart.symm {s t : Structure} (h : Apart s t) : Apart t s :=
  fun e he d hd hn => h d hd e he hn.symm

instance (s t : Structure) : Decidable (Apart s t) :=
  inferInstanceAs (Decidable (∀ d ∈ s, ∀ e ∈ t, d.name ≠ e.name))

end Structure

/-! The names of the whole. -/

namespace Index

theorem mem_names_ofStructure {s : Structure} {n : String} :
    n ∈ (ofStructure s).names ↔ (Structure.named? s n).isSome := by
  rw [mem_names, contains, get?_ofStructure]

theorem names_append_perm {s t : Structure} (h : s.Apart t) :
    (ofStructure (s ++ t)).names.Perm ((ofStructure s).names ++ (ofStructure t).names) := by
  have hdisjoint : (ofStructure s).names.Disjoint (ofStructure t).names := by
    intro n hs ht
    rw [mem_names_ofStructure] at hs ht
    simp [h.named?_right hs] at ht
  have hnodup := (nodup_names_ofStructure s).append (nodup_names_ofStructure t) hdisjoint
  refine (List.perm_ext_iff_of_nodup (nodup_names_ofStructure _) hnodup).mpr fun n => ?_
  rw [List.mem_append, mem_names_ofStructure, mem_names_ofStructure, mem_names_ofStructure,
    Structure.named?_append, Option.isSome_or, Bool.or_eq_true, or_comm]

end Index

namespace Comparison
open Declaration Structure

section Parts

variable {old₁ old₂ new₁ new₂ : Structure} (hold : old₁.Apart old₂) (hcross : new₁.Apart old₂)
  (hcross' : old₁.Apart new₂) (hnew : new₁.Apart new₂)

include hcross hcross' in
/-- Whether a new name is an old one is decided in its part. -/
theorem filter_names_append :
    ((Index.ofStructure new₁).names ++ (Index.ofStructure new₂).names).filter
        (!(Index.ofStructure (old₁ ++ old₂)).contains ·) =
      (Index.ofStructure new₁).names.filter (!(Index.ofStructure old₁).contains ·) ++
        (Index.ofStructure new₂).names.filter (!(Index.ofStructure old₂).contains ·) := by
  have hcontains : ∀ n, (Index.ofStructure (old₁ ++ old₂)).contains n =
      ((Index.ofStructure old₂).contains n || (Index.ofStructure old₁).contains n) := by
    intro n
    simp only [Index.contains, Index.get?_ofStructure, named?_append, Option.isSome_or]
  rw [List.filter_append]
  congr 1
  · refine List.filter_congr fun n hn => ?_
    rw [Index.mem_names_ofStructure] at hn
    have : (Index.ofStructure old₂).contains n = false := by
      rw [Index.contains, Index.get?_ofStructure, hcross.named?_right hn]
      rfl
    rw [hcontains, this, Bool.false_or]
  · refine List.filter_congr fun n hn => ?_
    rw [Index.mem_names_ofStructure] at hn
    have : (Index.ofStructure old₁).contains n = false := by
      rw [Index.contains, Index.get?_ofStructure, hcross'.symm.named?_right hn]
      rfl
    rw [hcontains, this, Bool.or_false]

include hold hcross hcross' hnew

/-- A comparison of the whole visits the names that comparisons of the parts visit. -/
theorem names_append_perm (dedupe : Bool) :
    (names dedupe (Index.ofStructure (old₁ ++ old₂)) (Index.ofStructure (new₁ ++ new₂))).Perm
      (names dedupe (Index.ofStructure old₁) (Index.ofStructure new₁) ++
        names dedupe (Index.ofStructure old₂) (Index.ofStructure new₂)) := by
  -- four blocks of names, of which the middle two change places
  have interchange : ∀ as bs cs ds : List String,
      ((as ++ bs) ++ (cs ++ ds)).Perm ((as ++ cs) ++ (bs ++ ds)) := by
    intro as bs cs ds
    rw [List.append_assoc, List.append_assoc, ← List.append_assoc bs, ← List.append_assoc cs]
    exact (List.perm_append_comm.append_right ds).append_left as
  have ho := Index.names_append_perm hold
  have hn := Index.names_append_perm hnew
  cases dedupe with
  | false =>
    simp only [names, Bool.false_eq_true, if_false]
    exact (ho.append hn).trans (interchange _ _ _ _)
  | true =>
    have hfilter := hn.filter (!(Index.ofStructure (old₁ ++ old₂)).contains ·)
    rw [filter_names_append hcross hcross'] at hfilter
    simp only [names, if_true]
    exact (ho.append hfilter).trans (interchange _ _ _ _)

/-- A name that the first parts know stands for the same declarations in the whole. -/
theorem named?_append_of_first {dedupe : Bool} {n : String}
    (h : n ∈ names dedupe (Index.ofStructure old₁) (Index.ofStructure new₁)) :
    named? (old₁ ++ old₂) n = named? old₁ n ∧ named? (new₁ ++ new₂) n = named? new₁ n := by
  rw [mem_names, Index.get?_ofStructure, Index.get?_ofStructure] at h
  rw [named?_append, named?_append]
  rcases h with h | h
  · rw [hold.named?_right h, hcross'.named?_right h]
    exact ⟨rfl, rfl⟩
  · rw [hcross.named?_right h, hnew.named?_right h]
    exact ⟨rfl, rfl⟩

/-- A name that the second parts know stands for the same declarations in the whole. -/
theorem named?_append_of_second {dedupe : Bool} {n : String}
    (h : n ∈ names dedupe (Index.ofStructure old₂) (Index.ofStructure new₂)) :
    named? (old₁ ++ old₂) n = named? old₂ n ∧ named? (new₁ ++ new₂) n = named? new₂ n := by
  rw [mem_names, Index.get?_ofStructure, Index.get?_ofStructure] at h
  rw [named?_append, named?_append]
  rcases h with h | h
  · rw [hold.symm.named?_right h, hcross.symm.named?_right h, Option.or_none, Option.or_none]
    exact ⟨rfl, rfl⟩
  · rw [hcross'.symm.named?_right h, hnew.symm.named?_right h, Option.or_none, Option.or_none]
    exact ⟨rfl, rfl⟩

end Parts

/-- The records of a whole are those of its parts, if the parts share no top-level name. -/
theorem compare_append_perm (dedupe : Bool) {old₁ old₂ new₁ new₂ : Structure}
    (h : (old₁ ++ new₁).Apart (old₂ ++ new₂)) :
    (compare dedupe (old₁ ++ old₂) (new₁ ++ new₂)).Perm
      (compare dedupe old₁ new₁ ++ compare dedupe old₂ new₂) := by
  have hold : old₁.Apart old₂ := fun d hd e he =>
    h d (List.mem_append_left _ hd) e (List.mem_append_left _ he)
  have hcross : new₁.Apart old₂ := fun d hd e he =>
    h d (List.mem_append_right _ hd) e (List.mem_append_left _ he)
  have hcross' : old₁.Apart new₂ := fun d hd e he =>
    h d (List.mem_append_left _ hd) e (List.mem_append_right _ he)
  have hnew : new₁.Apart new₂ := fun d hd e he =>
    h d (List.mem_append_right _ hd) e (List.mem_append_right _ he)
  simp only [compare, compareIndexes, Index.get?_ofStructure]
  refine ((names_append_perm hold hcross hcross' hnew dedupe).flatMap_right _).trans ?_
  rw [List.flatMap_append]
  refine List.Perm.of_eq (congrArg₂ _ (List.flatMap_congr fun n hn => ?_)
    (List.flatMap_congr fun n hn => ?_))
  · obtain ⟨ho, hn⟩ := named?_append_of_first hold hcross hcross' hnew hn
    rw [ho, hn]
  · obtain ⟨ho, hn⟩ := named?_append_of_second hold hcross hcross' hnew hn
    rw [ho, hn]

/-- Two classes that change, and an alias that comes and stands between them. -/
theorem compare_append_perm_shapes :
    Structure.Apart
      ([classType "Circle" [property "size" "string"] none] ++
        [classType "Circle" [property "size" "number"] none])
      ([classType "Shape" [property "area" "string"] none] ++
        [classType "Shape" [] none, typeAlias "Figure" "Shape"]) ∧
    (compare true
      ([classType "Circle" [property "size" "string"] none] ++
        [classType "Shape" [property "area" "string"] none])
      ([classType "Circle" [property "size" "number"] none] ++
        [classType "Shape" [] none, typeAlias "Figure" "Shape"])).Perm
      (compare true [classType "Circle" [property "size" "string"] none]
          [classType "Circle" [property "size" "number"] none] ++
        compare true [classType "Shape" [property "area" "string"] none]
          [classType "Shape" [] none, typeAlias "Figure" "Shape"]) :=
  have h : Structure.Apart
      ([classType "Circle" [property "size" "string"] none] ++
        [classType "Circle" [property "size" "number"] none])
      ([classType "Shape" [property "area" "string"] none] ++
        [classType "Shape" [] none, typeAlias "Figure" "Shape"]) := by
    intro d hd e he
    simp only [List.cons_append, List.nil_append, List.mem_cons, List.not_mem_nil, or_false]
      at hd he
    rcases hd with rfl | rfl <;> rcases he with rfl | rfl | rfl <;> decide
  ⟨h, compare_append_perm true h⟩

end Comparison
end ApiSurface
