import ApiSurface.Proofs.Multiplicity
import ApiSurface.Proofs.PathDifference

/-! Where the records of a comparison come from. Whatever becomes of a declaration, two entries are
only compared if the same path leads to both. So every record shows what stands at one path, and is
grouped under the container on that path. -/
namespace ApiSurface.Comparison

/-- A record on the values of two enumerations at one path; one of them may be missing, or be
something else. -/
def IsValueRecord (old new : Structure) (c : Change) : Prop :=
  ∃ p, (isEnumeration (old.at? p) || isEnumeration (new.at? p)) ∧
    c ∈ compareEnumValues (nameOf p) (enumValues (old.at? p)) (nameOf p) (enumValues (new.at? p))

/-- A record that the declarations at one path bear out. -/
inductive Witnessed (old new : Structure) : Change → Prop
  | added (p : List String) (n : Linked) (here : new.at? p = some n) (leaf : n.kind.isLeaf)
      (missing : old.at? p = none) : Witnessed old new (.added (groupOf p) "" n.display)
  | removed (p : List String) (o : Linked) (here : old.at? p = some o) (leaf : o.kind.isLeaf)
      (missing : new.at? p = none) : Witnessed old new (.removed (groupOf p) "" o.display)
  | kind (p : List String) (o n : Linked) (before : old.at? p = some o) (after : new.at? p = some n)
      (differ : o.kind ≠ n.kind) :
      Witnessed old new
        (.changed (nameOf p) (nameOf p ++ " type: ") o.kind.name n.kind.name)
  | text (p : List String) (o n : Linked) (before : old.at? p = some o) (after : new.at? p = some n)
      (leaf : n.kind.isLeaf) (differ : o.display ≠ n.display) :
      Witnessed old new (.changed (groupOf p) "" o.display n.display)

/-! What a route says of the two kinds. -/

section Route

variable {old new : Option Linked}

theorem isEnumeration_of_route
    (h : route? (old.map (·.kind)) (new.map (·.kind)) = some .enumerations) :
    isEnumeration old || isEnumeration new := by
  cases old with
  | none =>
    cases new with
    | none => simp [route?] at h
    | some n =>
      cases hk : n.kind <;> simp_all [route?, isEnumeration, Kind.isContainer, Kind.isLeaf]
  | some o =>
    cases new with
    | none => cases hk : o.kind <;> simp_all [route?, isEnumeration, Kind.isContainer, Kind.isLeaf]
    | some n =>
      by_cases ho : o.kind = .enumeration
      · simp [isEnumeration, ho]
      · cases hk : n.kind <;> simp_all [route?, isEnumeration, Kind.isContainer, Kind.isLeaf]

/-- Only what is a leaf now, or was one when it is gone, is compared by its text. -/
theorem isLeaf_of_route (h : route? (old.map (·.kind)) (new.map (·.kind)) = some .leaves)
    {l : Linked} (hl : new.or old = some l) : l.kind.isLeaf := by
  have hk : (new.map (·.kind)).or (old.map (·.kind)) = some l.kind := by
    rw [← Option.map_or, hl]
    rfl
  rw [route?, hk] at h
  split_ifs at h
  · cases h
  · rw [Option.map_some, Option.some.injEq] at h
    cases hq : l.kind <;> simp [hq, Kind.isContainer, Kind.isLeaf] at h ⊢

end Route

/-! What two entries at a path report. -/

section Entries

variable {old new : Structure} {p : List String} {c : Change}

theorem witnessed_of_mem_kindChange (h : c ∈ kindChange (old.at? p) (new.at? p)) :
    Witnessed old new c := by
  cases ho : old.at? p with
  | none => simp [kindChange, ho] at h
  | some o =>
    cases hn : new.at? p with
    | none => simp [kindChange, hn] at h
    | some n =>
      have hname : o.name = nameOf p := (standsAt_at? old p o ho).1
      have hname' : n.name = nameOf p := (standsAt_at? new p n hn).1
      rw [ho, hn, kindChange] at h
      split_ifs at h with hk
      · cases h
      · obtain rfl := List.mem_singleton.mp h
        rw [hname, hname']
        exact .kind p o n ho hn hk

theorem witnessed_of_mem_compareLeaves
    (hroute : route? ((old.at? p).map (·.kind)) ((new.at? p).map (·.kind)) = some .leaves)
    (h : c ∈ compareLeaves (old.at? p) (new.at? p)) : Witnessed old new c := by
  have leaf := fun l : Linked => isLeaf_of_route (l := l) hroute
  have ho := standsAt_at? old p
  have hn := standsAt_at? new p
  rw [compareLeaves_eq ho hn] at h
  cases hold : old.at? p with
  | none =>
    cases hnew : new.at? p with
    | none => simp [textChanges, hold, hnew] at h
    | some n =>
      obtain rfl : c = .added (groupOf p) "" n.display := by
        simpa [textChanges, hold, hnew] using h
      exact .added p n hnew (leaf n (by simp [hnew])) hold
  | some o =>
    cases hnew : new.at? p with
    | none =>
      obtain rfl : c = .removed (groupOf p) "" o.display := by
        simpa [textChanges, hold, hnew] using h
      exact .removed p o hold (leaf o (by simp [hold, hnew])) hnew
    | some n =>
      obtain ⟨hdiffer, rfl⟩ : o.display ≠ n.display ∧
          c = .changed (groupOf p) "" o.display n.display := by
        simpa [textChanges, hold, hnew] using h
      exact .text p o n hold hnew (leaf n (by simp [hnew])) hdiffer

theorem witnessed_of_mem_ownChanges (h : c ∈ ownChanges (old.at? p) (new.at? p)) :
    IsValueRecord old new c ∨ Witnessed old new c := by
  rw [ownChanges] at h
  rcases List.mem_append.mp h with hkind | hown
  · exact .inr (witnessed_of_mem_kindChange hkind)
  · cases hroute : route? ((old.at? p).map (·.kind)) ((new.at? p).map (·.kind)) with
    | none => simp [hroute] at hown
    | some r =>
      cases r with
      | members => simp [hroute] at hown
      | leaves =>
        simp only [hroute] at hown
        exact .inr (witnessed_of_mem_compareLeaves hroute hown)
      | enumerations =>
        simp only [hroute] at hown
        have he := isEnumeration_of_route hroute
        rw [compareEnumerations_eq (standsAt_at? old p) (standsAt_at? new p) he] at hown
        exact .inl ⟨p, he, hown⟩

end Entries

/-- In both modes a record belongs to the declarations at some path. -/
theorem exists_mem_localChanges {dedupe : Bool} {old new : Structure} {c : Change}
    (h : c ∈ compare dedupe old new) : ∃ p, c ∈ localChanges true (old.at? p) (new.at? p) := by
  have hc : ∃ e ∈ emissions true old new, e.change = c := by
    cases dedupe with
    | true => simpa [← map_change_emissions] using h
    | false =>
      -- a record that is repeated is there to be repeated
      have hcount := List.count_pos_iff.mpr h
      rw [count_compare_false] at hcount
      by_contra hnone
      push Not at hnone
      have hempty : (emissions true old new).filter (·.change = c) = [] :=
        List.filter_eq_nil_iff.mpr fun e he => by simpa using hnone e he
      simp [Emission.weight, hempty] at hcount
  obtain ⟨e, he, rfl⟩ := hc
  exact ⟨e.path, mem_localChanges_of_mem_emissions he⟩

/-- Separators and records on the values of enumerations apart, every record of a comparison is
borne out by the declarations at one path. -/
theorem witnessed_of_mem_compare (dedupe : Bool) (old new : Structure) :
    ∀ c ∈ compare dedupe old new,
      c = .separator ∨ IsValueRecord old new c ∨ Witnessed old new c := by
  intro c hc
  obtain ⟨p, hp⟩ := exists_mem_localChanges hc
  rcases List.mem_append.mp hp with hown | hclose
  · exact .inr (witnessed_of_mem_ownChanges hown)
  · split_ifs at hclose
    · cases hclose
    · exact .inl (List.mem_singleton.mp hclose)

/-- A class that becomes a type is compared by its text, and its members are not reported: nothing
stands under the type. -/
theorem witnessed_of_mem_compare_identifier :
    Change.changed "Id" "" "class Id" "type Id = string" ∈
        compare false [.classType "Id" [.property "text" "string"] none]
          [.typeAlias "Id" "string"] ∧
    (Change.changed "Id" "" "class Id" "type Id = string" = .separator ∨
      IsValueRecord [.classType "Id" [.property "text" "string"] none] [.typeAlias "Id" "string"]
        (.changed "Id" "" "class Id" "type Id = string") ∨
      Witnessed [.classType "Id" [.property "text" "string"] none] [.typeAlias "Id" "string"]
        (.changed "Id" "" "class Id" "type Id = string")) := by
  have hrecords : compare false [.classType "Id" [.property "text" "string"] none]
      [.typeAlias "Id" "string"] =
      [.changed "Id" "Id type: " "class" "type_alias",
        .changed "Id" "" "class Id" "type Id = string",
        .changed "Id" "Id type: " "class" "type_alias",
        .changed "Id" "" "class Id" "type Id = string"] := by cbv
  have hmem : Change.changed "Id" "" "class Id" "type Id = string" ∈
      compare false [.classType "Id" [.property "text" "string"] none]
        [.typeAlias "Id" "string"] := by
    rw [hrecords]
    decide
  exact ⟨hmem, witnessed_of_mem_compare false _ _ _ hmem⟩

end ApiSurface.Comparison
