import ApiSurface.Proofs.Emissions
import ApiSurface.Proofs.EnumDifference

/-! A comparison path by path. If no path leads to declarations of different kinds, a comparison
that visits each name once reports for every path what the two declarations there differ by, and
nothing else. -/
namespace ApiSurface

mutual

/-- The paths that start with a declaration, those to hidden siblings among them. -/
def Declaration.paths : Declaration → List (List String)
  | .classType n ms _ | .interface n ms _ => [n] :: (Declaration.listPaths ms).map (n :: ·)
  | d => [[d.name]]

def Declaration.listPaths : List Declaration → List (List String)
  | [] => []
  | d :: ds => d.paths ++ Declaration.listPaths ds

end

/-- The paths at which a structure has a declaration. -/
def Structure.paths (s : Structure) : Finset (List String) :=
  (Declaration.listPaths s).toFinset.filter fun p => (s.at? p).isSome

namespace Declaration

theorem mem_listPaths {d : Declaration} {ds : List Declaration} (h : d ∈ ds) {p : List String}
    (hp : p ∈ d.paths) : p ∈ listPaths ds := by
  induction ds with
  | nil => cases h
  | cons e ds ih =>
    rw [listPaths]
    rcases List.mem_cons.mp h with rfl | h
    · exact List.mem_append_left _ hp
    · exact List.mem_append_right _ (ih h)

theorem singleton_mem_paths (d : Declaration) : [d.name] ∈ d.paths := by
  cases d <;> simp [paths, name]

theorem cons_mem_paths {d : Declaration} {p : List String} (h : p ∈ listPaths d.members) :
    d.name :: p ∈ d.paths := by
  cases d with
  | classType n ms s => exact List.mem_cons_of_mem _ (List.mem_map_of_mem h)
  | interface n ms bs => exact List.mem_cons_of_mem _ (List.mem_map_of_mem h)
  | _ => simp [members, listPaths] at h

theorem members_eq_nil {d : Declaration} (h : ¬ d.kind.isContainer) : d.members = [] := by
  cases d <;> simp_all [kind, members, Kind.isContainer]

end Declaration

theorem Linked.cons_mem_paths {l : Linked} {p : List String} (h : (follow (some l) p).isSome) :
    l.name :: p ∈ l.declaration.paths := by
  induction p generalizing l with
  | nil => exact l.declaration.singleton_mem_paths
  | cons m p ih =>
    cases hm : Declaration.lastNamed? m l.declaration.members with
    | none => simp [Linked.member?, hm] at h
    | some d =>
      have hd : Linked.follow (some ⟨d, some l.name⟩) p = follow (some l) (m :: p) := by
        simp [Linked.member?, hm]
      have hp := ih (hd ▸ h)
      obtain rfl : d.name = m := Declaration.name_of_lastNamed? hm
      exact Declaration.cons_mem_paths
        (Declaration.mem_listPaths (Declaration.mem_of_lastNamed? hm) hp)

theorem Structure.mem_paths (s : Structure) (p : List String) : p ∈ s.paths ↔ (s.at? p).isSome := by
  rw [paths, Finset.mem_filter, List.mem_toFinset]
  refine ⟨fun h => h.2, fun h => ⟨?_, h⟩⟩
  cases p with
  | nil => cases h
  | cons n p =>
    cases hn : Declaration.lastNamed? n s with
    | none => simp [named?, hn] at h
    | some d =>
      have hp := Linked.cons_mem_paths (l := ⟨d, none⟩) (p := p) (by simpa [named?, hn] using h)
      obtain rfl : d.name = n := Declaration.name_of_lastNamed? hn
      exact Declaration.mem_listPaths (Declaration.mem_of_lastNamed? hn) hp

namespace Comparison

open Emission

/-! What a path reports. -/

/-- The name of the declaration at a path. -/
def nameOf (p : List String) : String := p.getLast?.getD ""

/-- The container of the declaration at a path, or the declaration itself at top level. -/
def groupOf (p : List String) : String := p.dropLast.getLast?.getD (nameOf p)

/-- The text by which a leaf is shown. -/
def leafText? (l : Option Linked) : Option String := (l.filter (·.kind.isLeaf)).map (·.display)

/-- The values of an enumeration; one that is missing has none. -/
def enumValues (l : Option Linked) : List String := (l.map (·.declaration.values)).getD []

def isEnumeration (l : Option Linked) : Bool := l.any (·.kind = .enumeration)

/-- The difference between two texts, of which one may be missing. -/
def textChanges (group : String) : Option String → Option String → List Change
  | some o, some n => if o = n then [] else [.changed group "" o n]
  | none, some n => [.added group "" n]
  | some o, none => [.removed group "" o]
  | none, none => []

/-- The difference between the declarations at a path. -/
def pathChanges (p : List String) (old new : Option Linked) : List Change :=
  textChanges (groupOf p) (leafText? old) (leafText? new) ++
    if isEnumeration old || isEnumeration new then
      compareEnumValues (nameOf p) (enumValues old) (nameOf p) (enumValues new)
    else []

/-- An entry has the name and the group of its path. -/
def StandsAt (p : List String) (l : Option Linked) : Prop :=
  ∀ k, l = some k → k.name = nameOf p ∧ k.group = groupOf p

theorem standsAt_at? (s : Structure) (p : List String) : StandsAt p (s.at? p) := by
  induction p using List.reverseRecOn with
  | nil => exact fun _ h => nomatch h
  | append_singleton p n ih =>
    intro k hk
    by_cases hp : p = []
    · subst hp
      obtain ⟨d, hd, rfl⟩ := Option.map_eq_some_iff.mp hk
      have hn := Declaration.name_of_lastNamed? hd
      constructor
      · simpa [nameOf, Linked.name] using hn
      · simpa [groupOf, nameOf, Linked.group, Linked.name] using hn
    · rw [Structure.at?_concat s hp] at hk
      obtain ⟨l, hl, hm⟩ := Option.bind_eq_some_iff.mp hk
      obtain ⟨d, hd, rfl⟩ := Option.map_eq_some_iff.mp hm
      have hn := Declaration.name_of_lastNamed? hd
      refine ⟨by simpa [nameOf, Linked.name] using hn, ?_⟩
      have hg : (p.getLast?).getD "" = l.name := ((ih l hl).1).symm
      rw [List.getLast?_eq_some_getLast hp] at hg
      simpa [groupOf, Linked.group, List.getLast?_eq_some_getLast hp] using hg.symm

theorem pathChanges_none (p : List String) : pathChanges p none none = [] := rfl

section OfKind

variable {k : Kind} {l : Option Linked} (h : ∀ m, l = some m → m.kind = k)
include h

theorem leafText?_of_isLeaf (hk : k.isLeaf) : leafText? l = l.map (·.display) := by
  cases l with
  | none => rfl
  | some m => simp [leafText?, Option.filter, h m rfl, hk]

theorem leafText?_of_not_isLeaf (hk : ¬ k.isLeaf) : leafText? l = none := by
  cases l with
  | none => rfl
  | some m => simp [leafText?, Option.filter, h m rfl, hk]

theorem bind_member?_of_not_isContainer (hk : ¬ k.isContainer) (n : String) :
    l.bind (·.member? n) = none := by
  cases l with
  | none => rfl
  | some m =>
    have hm : m.declaration.kind = k := h m rfl
    exact Linked.member?_of_members_eq_nil (Declaration.members_eq_nil (hm ▸ hk)) n

theorem isEnumeration_of_ne (hk : k ≠ .enumeration) : isEnumeration l = false := by
  cases l with
  | none => rfl
  | some m => simpa [isEnumeration, h m rfl] using hk

end OfKind

section PathChanges

variable {p : List String} {old new : Option Linked} (ho : StandsAt p old) (hn : StandsAt p new)
include ho hn

theorem compareEnumerations_eq (h : isEnumeration old || isEnumeration new) :
    compareEnumerations old new =
      compareEnumValues (nameOf p) (enumValues old) (nameOf p) (enumValues new) := by
  cases old with
  | none =>
    cases new with
    | none => cases h
    | some n => simp [compareEnumerations, enumValues, (hn n rfl).1]
  | some o =>
    cases new with
    | none => simp [compareEnumerations, enumValues, (ho o rfl).1]
    | some n => simp [compareEnumerations, enumValues, (ho o rfl).1, (hn n rfl).1]

theorem compareLeaves_eq :
    compareLeaves old new =
      textChanges (groupOf p) (old.map (·.display)) (new.map (·.display)) := by
  cases old with
  | none =>
    cases new with
    | none => rfl
    | some n => simp [compareLeaves, textChanges, (hn n rfl).2]
  | some o =>
    cases new with
    | none => simp [compareLeaves, textChanges, (ho o rfl).2]
    | some n => simp [compareLeaves, textChanges, (hn n rfl).2]

/-- Where the kinds agree, two entries report by themselves what their path does. -/
theorem ownChanges_eq_pathChanges (h : KindsAgree old new) :
    ownChanges old new = pathChanges p old new := by
  cases ht : (old.or new).map (·.kind) with
  | none =>
    obtain ⟨rfl, rfl⟩ : old = none ∧ new = none := by simpa using ht
    rfl
  | some k =>
    have hok := kind_of_left ht
    have hnk := kind_of_right h ht
    rw [ownChanges_eq h ht, pathChanges]
    rcases k.sort_of with rfl | hk | hk
    · have he : isEnumeration old || isEnumeration new := by
        obtain ⟨l, hl, he⟩ := Option.map_eq_some_iff.mp ht
        cases old with
        | none => simp_all [isEnumeration]
        | some o => simp [isEnumeration, hok o rfl]
      have hl : ¬ Kind.enumeration.isLeaf := Bool.false_ne_true
      rw [if_pos rfl, if_pos he, compareEnumerations_eq ho hn he, leafText?_of_not_isLeaf hok hl,
        leafText?_of_not_isLeaf hnk hl]
      rfl
    · have he := Kind.ne_enumeration_of_isLeaf hk
      rw [if_neg he, if_pos hk, compareLeaves_eq ho hn, leafText?_of_isLeaf hok hk,
        leafText?_of_isLeaf hnk hk, isEnumeration_of_ne hok he, isEnumeration_of_ne hnk he]
      exact (List.append_nil _).symm
    · have he := Kind.ne_enumeration_of_isContainer hk
      have hl : ¬ k.isLeaf := fun hl => Kind.not_isContainer_of_isLeaf hl hk
      rw [if_neg he, if_neg hl, leafText?_of_not_isLeaf hok hl, leafText?_of_not_isLeaf hnk hl,
        isEnumeration_of_ne hok he, isEnumeration_of_ne hnk he]
      rfl

end PathChanges

/-! The records at one path. -/

/-- The records that are no separators. -/
def proper (cs : List Change) : List Change := cs.filter (!·.isSeparator)

theorem proper_append (cs ds : List Change) : proper (cs ++ ds) = proper cs ++ proper ds :=
  List.filter_append cs ds

theorem proper_compareEnumValues (oldName newName : String) (old new : List String) :
    proper (compareEnumValues oldName old newName new) =
      compareEnumValues oldName old newName new := by
  apply List.filter_eq_self.mpr
  intro c hc
  rw [isSeparator_of_mem_compareEnumValues hc, Bool.not_false]

section Proper

variable (old new : Option Linked)

theorem proper_kindChange : proper (kindChange old new) = kindChange old new := by
  unfold kindChange
  split
  · split_ifs <;> rfl
  · rfl

theorem proper_compareEnumerations :
    proper (compareEnumerations old new) = compareEnumerations old new := by
  unfold compareEnumerations
  split
  · exact proper_compareEnumValues _ _ _ _
  · exact proper_compareEnumValues _ _ _ _
  · exact proper_compareEnumValues _ _ _ _
  · rfl

theorem proper_compareLeaves : proper (compareLeaves old new) = compareLeaves old new := by
  unfold compareLeaves
  split
  · split_ifs <;> rfl
  · rfl
  · rfl
  · rfl

theorem proper_ownChanges : proper (ownChanges old new) = ownChanges old new := by
  rw [ownChanges, proper_append, proper_kindChange]
  split
  · rw [proper_compareEnumerations]
  · rw [proper_compareLeaves]
  · rfl

theorem proper_localChanges (dedupe : Bool) :
    proper (localChanges dedupe old new) = ownChanges old new := by
  rw [localChanges, proper_append, proper_ownChanges]
  split_ifs
  · exact List.append_nil _
  · exact List.append_nil _

end Proper

/-- Entries that are not compared member by member have no members. -/
theorem member?_of_not_descends {old new : Option Linked} (h : KindsAgree old new)
    (hd : ¬ Descends old new) (n : String) :
    old.bind (·.member? n) = none ∧ new.bind (·.member? n) = none := by
  cases ht : (old.or new).map (·.kind) with
  | none =>
    obtain ⟨rfl, rfl⟩ : old = none ∧ new = none := by simpa using ht
    exact ⟨rfl, rfl⟩
  | some k =>
    rw [descends_iff_isContainer h ht] at hd
    exact ⟨bind_member?_of_not_isContainer (kind_of_left ht) hd n,
      bind_member?_of_not_isContainer (kind_of_right h ht) hd n⟩

/-- If the kinds agree at every path, the records at a path are those of its two entries. -/
theorem proper_changesAt_entryEmissions {old new : Option Linked}
    (h : ∀ q, KindsAgree (Linked.follow old q) (Linked.follow new q)) (p : List String) :
    proper (changesAt p (entryEmissions true old new)) =
      ownChanges (Linked.follow old p) (Linked.follow new p) := by
  induction p generalizing old new with
  | nil => rw [changesAt_entryEmissions_nil, proper_localChanges, Linked.follow_nil,
      Linked.follow_nil]
  | cons m p ih =>
    rw [changesAt_entryEmissions_cons, Linked.follow_cons, Linked.follow_cons]
    split_ifs with hd
    · exact ih fun q => h (m :: q)
    · have hk : KindsAgree old new := h []
      obtain ⟨ho, hn⟩ := member?_of_not_descends hk hd m
      rw [ho, hn, Linked.follow_none]
      rfl

/-- Kinds that agree at the paths of one structure agree at all paths. -/
theorem forall_kindsAgree_iff (old new : Structure) :
    (∀ p, KindsAgree (old.at? p) (new.at? p)) ↔
      ∀ p ∈ old.paths, KindsAgree (old.at? p) (new.at? p) := by
  refine ⟨fun h p _ => h p, fun h p => ?_⟩
  by_cases hp : p ∈ old.paths
  · exact h p hp
  · rw [Structure.mem_paths, Bool.not_eq_true, Option.isSome_eq_false_iff,
      Option.isNone_iff_eq_none] at hp
    rw [hp]
    exact kindsAgree_none_left _

section Structures

variable {old new : Structure} (h : ∀ p, KindsAgree (old.at? p) (new.at? p))
include h

theorem proper_changesAt_emissions (p : List String) :
    proper (changesAt p (emissions true old new)) = pathChanges p (old.at? p) (new.at? p) := by
  cases p with
  | nil =>
    rw [emissions, changesAt_gather_nil]
    rfl
  | cons m p =>
    have ho := standsAt_at? old (m :: p)
    have hn := standsAt_at? new (m :: p)
    rw [changesAt_emissions_cons, proper_changesAt_entryEmissions fun q => h (m :: q)]
    exact ownChanges_eq_pathChanges ho hn (h (m :: p))

end Structures

/-! All paths together. -/

/-- A list of records is all it has at the paths of a set, if it has them at these only. -/
theorem coe_map_change_eq_sum (es : List Emission) (s : Finset (List String))
    (h : ∀ e ∈ es, e.path ∈ s) :
    (es.map (·.change) : Multiset Change) = ∑ p ∈ s, (changesAt p es : Multiset Change) := by
  induction es with
  | nil => simp
  | cons e es ih =>
    have hc : ∀ p, (changesAt p (e :: es) : Multiset Change) =
        (if e.path = p then {e.change} else 0) + (changesAt p es : Multiset Change) := by
      intro p
      by_cases hp : e.path = p <;> simp [changesAt, hp]
    have hs : e.path ∈ s := h e List.mem_cons_self
    rw [Finset.sum_congr rfl fun p _ => hc p, Finset.sum_add_distrib, Finset.sum_ite_eq, if_pos hs,
      ← ih fun f hf => h f (List.mem_cons_of_mem e hf)]
    rfl

theorem changesAt_filter (p : List String) (es : List Emission) :
    changesAt p (es.filter (!·.change.isSeparator)) = proper (changesAt p es) := by
  rw [changesAt, changesAt, proper, List.filter_filter, List.filter_map, List.filter_filter]
  exact congrArg (List.map _) (List.filter_congr fun e _ => Bool.and_comm _ _)

/-- If the kinds agree at every path, a comparison that visits each name once reports, separators
apart, what the two declarations at each path differ by, and nothing else. -/
theorem proper_compare_eq_sum (old new : Structure)
    (h : ∀ p, KindsAgree (old.at? p) (new.at? p)) :
    (proper (compare true old new) : Multiset Change) =
      ∑ p ∈ old.paths ∪ new.paths, (pathChanges p (old.at? p) (new.at? p) : Multiset Change) := by
  have hs : ∀ p, changesAt p ((emissions true old new).filter (!·.change.isSeparator)) =
      pathChanges p (old.at? p) (new.at? p) := fun p => by
    rw [changesAt_filter, proper_changesAt_emissions h]
  have hm : proper (compare true old new) =
      ((emissions true old new).filter (!·.change.isSeparator)).map (·.change) := by
    rw [← map_change_emissions, proper, List.filter_map]
    rfl
  rw [hm, coe_map_change_eq_sum _ (old.paths ∪ new.paths)]
  · exact Finset.sum_congr rfl fun p _ => by rw [hs]
  · -- a path without declarations reports nothing
    intro e he
    by_contra hp
    have hc := mem_changesAt he
    simp only [Finset.mem_union, Structure.mem_paths, not_or, Bool.not_eq_true,
      Option.isSome_eq_false_iff, Option.isNone_iff_eq_none] at hp
    rw [hs, hp.1, hp.2, pathChanges_none] at hc
    cases hc

/-- A class with a nested interface and an enumeration, and a parameter. -/
def shapeBefore : Structure :=
  [.classType "Shape" [.property "area" "number", .enumeration "Mode" ["Fill"],
    .interface "Corner" [.method "round" [] none] []] none, .parameter "depth" "number"]

/-- The same class after a release that drops the parameter. -/
def shapeAfter : Structure :=
  [.typeAlias "Id" "string", .classType "Shape" [.property "area" "string",
    .enumeration "Mode" ["Fill", "Line"], .interface "Corner" [.property "size" "number"] []] none]

theorem proper_compare_shape_eq_sum :
    (∀ p, KindsAgree (shapeBefore.at? p) (shapeAfter.at? p)) ∧
    (proper (compare true shapeBefore shapeAfter) : Multiset Change) =
      ∑ p ∈ shapeBefore.paths ∪ shapeAfter.paths,
        (pathChanges p (shapeBefore.at? p) (shapeAfter.at? p) : Multiset Change) := by
  have h : ∀ p, KindsAgree (shapeBefore.at? p) (shapeAfter.at? p) :=
    (forall_kindsAgree_iff shapeBefore shapeAfter).mpr (by decide)
  exact ⟨h, proper_compare_eq_sum shapeBefore shapeAfter h⟩

example : proper (compare true shapeBefore shapeAfter) =
    [.removed "Corner" "" "Corner.round()", .added "Corner" "" "Corner.size: number",
      .added "Mode" "" "Mode.Line", .changed "Shape" "" "Shape.area: number" "Shape.area: string",
      .removed "depth" "" "depth: number", .added "Id" "" "type Id = string"] := by cbv

end Comparison
end ApiSurface
