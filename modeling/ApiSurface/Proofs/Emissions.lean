import ApiSurface.Proofs.Entries

/-! The records of a comparison with the paths at which they are reported. Without the paths they
are the records of the comparison, in the same order, and each belongs to the declarations at its
path. -/
namespace ApiSurface.Comparison

/-- A record and the path of the entries that report it. -/
structure Emission where
  path : List String
  change : Change
  deriving Repr, DecidableEq

namespace Emission

/-- Seen from the container of the entry `n`. -/
def under (n : String) (e : Emission) : Emission := ⟨n :: e.path, e.change⟩

/-- Records that two entries report themselves. -/
def here (cs : List Change) : List Emission := cs.map (⟨[], ·⟩)

/-- The records of all entries with the given names. -/
def gather (ns : List String) (f : String → List Emission) : List Emission :=
  ns.flatMap fun n => (f n).map (under n)

/-- Records of members, with a separator behind them. -/
def close (es : List Emission) : List Emission :=
  if es.isEmpty then [] else es ++ here [.separator]

/-- The records that are reported at a path. -/
def changesAt (p : List String) (es : List Emission) : List Change :=
  (es.filter (·.path = p)).map (·.change)

@[simp] theorem map_change_here (cs : List Change) : (here cs).map (·.change) = cs := by
  simp [here, Function.comp_def]

theorem map_change_gather (ns : List String) (f : String → List Emission) :
    (gather ns f).map (·.change) = ns.flatMap fun n => (f n).map (·.change) := by
  simp [gather, List.map_flatMap, under, Function.comp_def]

theorem map_change_close (es : List Emission) :
    (close es).map (·.change) = Comparison.close (es.map (·.change)) := by
  cases es <;> simp [close, Comparison.close]

section ChangesAt

variable (p : List String)

@[simp] theorem changesAt_nil : changesAt p [] = [] := rfl

@[simp] theorem changesAt_append (es fs : List Emission) :
    changesAt p (es ++ fs) = changesAt p es ++ changesAt p fs := by simp [changesAt]

theorem mem_changesAt {e : Emission} {es : List Emission} (h : e ∈ es) :
    e.change ∈ changesAt e.path es :=
  List.mem_map.mpr ⟨e, List.mem_filter.mpr ⟨h, by simp⟩, rfl⟩

@[simp] theorem changesAt_here_nil (cs : List Change) : changesAt [] (here cs) = cs := by
  simp [changesAt, here, List.filter_map, Function.comp_def]

@[simp] theorem changesAt_here_cons (n : String) (cs : List Change) :
    changesAt (n :: p) (here cs) = [] := by simp [changesAt, here]

@[simp] theorem changesAt_under_nil (n : String) (es : List Emission) :
    changesAt [] (es.map (under n)) = [] := by simp [changesAt, under]

theorem changesAt_under_cons (m n : String) (es : List Emission) :
    changesAt (m :: p) (es.map (under n)) = if n = m then changesAt p es else [] := by
  split_ifs with h
  · subst h
    simp [changesAt, List.filter_map, under, Function.comp_def]
  · simp [changesAt, under, h]

@[simp] theorem changesAt_gather_nil (ns : List String) (f : String → List Emission) :
    changesAt [] (gather ns f) = [] := by
  induction ns with
  | nil => rfl
  | cons n ns ih => simpa [gather] using ih

/-- A path leads into one of the entries. -/
theorem changesAt_gather_cons {ns : List String} (h : ns.Nodup) (m : String)
    (f : String → List Emission) :
    changesAt (m :: p) (gather ns f) = if m ∈ ns then changesAt p (f m) else [] := by
  induction ns with
  | nil => rfl
  | cons n ns ih =>
    have hn := List.nodup_cons.mp h
    have hc : changesAt (m :: p) (gather (n :: ns) f) =
        changesAt (m :: p) ((f n).map (under n)) ++ changesAt (m :: p) (gather ns f) := by
      simp [gather]
    rw [hc, changesAt_under_cons, ih hn.2]
    by_cases he : n = m
    · subst he
      simp [hn.1]
    · simp [he, Ne.symm he]

theorem changesAt_close_nil {es : List Emission} (h : changesAt [] es = []) :
    changesAt [] (close es) = if es.map (·.change) = [] then [] else [.separator] := by
  cases es with
  | nil => rfl
  | cons e es =>
    simp only [close, List.isEmpty_cons, Bool.false_eq_true, if_false, changesAt_append, h,
      changesAt_here_nil, List.map_cons, reduceCtorEq, List.nil_append]

@[simp] theorem changesAt_close_cons (n : String) (es : List Emission) :
    changesAt (n :: p) (close es) = changesAt (n :: p) es := by
  unfold close
  split_ifs with h
  · rw [List.isEmpty_iff.mp h]
  · rw [changesAt_append, changesAt_here_cons, List.append_nil]

end ChangesAt

end Emission

open Emission

/-- The records of two entries, with paths that start below them. -/
def entryEmissions (dedupe : Bool) (old new : Option Linked) : List Emission :=
  here (ownChanges old new) ++
    if _h : Descends old new then
      Emission.close (gather
        (names dedupe (Index.ofMembers (old.map (·.declaration)))
          (Index.ofMembers (new.map (·.declaration))))
        fun n => entryEmissions dedupe (old.bind (·.member? n)) (new.bind (·.member? n)))
    else []
termination_by Linked.depth? old + Linked.depth? new
decreasing_by simpa using depth?_members_lt n _h

/-- The records of a comparison, each with the path of the entries that report it. -/
def emissions (dedupe : Bool) (old new : Structure) : List Emission :=
  gather (names dedupe (Index.ofStructure old) (Index.ofStructure new))
    fun n => entryEmissions dedupe (old.named? n) (new.named? n)

/-- What two entries report themselves, with the separator behind their members. -/
def localChanges (dedupe : Bool) (old new : Option Linked) : List Change :=
  ownChanges old new ++ if memberChanges dedupe old new = [] then [] else [.separator]

/-- The records of the members of two entries. -/
def memberEmissions (dedupe : Bool) (old new : Option Linked) : List Emission :=
  if Descends old new then
    gather (names dedupe (Index.ofMembers (old.map (·.declaration)))
        (Index.ofMembers (new.map (·.declaration))))
      fun n => entryEmissions dedupe (old.bind (·.member? n)) (new.bind (·.member? n))
  else []

theorem entryEmissions_eq (dedupe : Bool) (old new : Option Linked) :
    entryEmissions dedupe old new =
      here (ownChanges old new) ++ Emission.close (memberEmissions dedupe old new) := by
  rw [entryEmissions, memberEmissions]
  by_cases hd : Descends old new <;> simp [hd, Emission.close]

theorem map_change_entryEmissions (dedupe : Bool) (old new : Option Linked) :
    (entryEmissions dedupe old new).map (·.change) = compareEntries dedupe old new := by
  induction old, new using entries_induction with
  | step old new ih =>
    rw [entryEmissions_eq, compareEntries_eq, memberChanges, memberEmissions, List.map_append,
      map_change_here, map_change_close]
    by_cases hd : Descends old new
    · simp only [hd, if_true, map_change_gather, ih hd, compareIndexes, Index.get?_ofMembers]
    · simp [hd]

theorem map_change_memberEmissions (dedupe : Bool) (old new : Option Linked) :
    (memberEmissions dedupe old new).map (·.change) = memberChanges dedupe old new := by
  rw [memberEmissions, memberChanges]
  split_ifs with hd
  · simp only [map_change_gather, map_change_entryEmissions, compareIndexes, Index.get?_ofMembers]
  · rfl

/-- Without the paths the records are those of the comparison, in the same order. -/
theorem map_change_emissions (dedupe : Bool) (old new : Structure) :
    (emissions dedupe old new).map (·.change) = compare dedupe old new := by
  simp only [emissions, map_change_gather, map_change_entryEmissions, compare, compareIndexes,
    Index.get?_ofStructure]

theorem entryEmissions_none (dedupe : Bool) : entryEmissions dedupe none none = [] :=
  List.map_eq_nil_iff.mp ((map_change_entryEmissions dedupe none none).trans
    (compareEntries_none dedupe))

/-! The records at a path are those of the entries to which it leads. -/

theorem changesAt_memberEmissions_nil (dedupe : Bool) (old new : Option Linked) :
    changesAt [] (memberEmissions dedupe old new) = [] := by
  unfold memberEmissions
  split_ifs with hd
  · exact changesAt_gather_nil _ _
  · rfl

theorem changesAt_entryEmissions_nil (dedupe : Bool) (old new : Option Linked) :
    changesAt [] (entryEmissions dedupe old new) = localChanges dedupe old new := by
  rw [entryEmissions_eq, changesAt_append, changesAt_here_nil,
    changesAt_close_nil (changesAt_memberEmissions_nil dedupe old new),
    map_change_memberEmissions, localChanges]

theorem changesAt_gather_names {old new : Index} (ho : old.names.Nodup) (hn : new.names.Nodup)
    (m : String) (p : List String) :
    changesAt (m :: p) (gather (names true old new)
      fun n => entryEmissions true (old.get? n) (new.get? n)) =
    changesAt p (entryEmissions true (old.get? m) (new.get? m)) := by
  rw [changesAt_gather_cons p (nodup_names ho hn)]
  split_ifs with h
  · rfl
  · simp only [mem_names, not_or, Bool.not_eq_true, Option.isSome_eq_false_iff,
      Option.isNone_iff_eq_none] at h
    rw [h.1, h.2, entryEmissions_none, changesAt_nil]

theorem changesAt_entryEmissions_cons (old new : Option Linked) (m : String) (p : List String) :
    changesAt (m :: p) (entryEmissions true old new) =
      if Descends old new then
        changesAt p (entryEmissions true (old.bind (·.member? m)) (new.bind (·.member? m)))
      else [] := by
  rw [entryEmissions_eq, changesAt_append, changesAt_here_cons, changesAt_close_cons,
    List.nil_append, memberEmissions]
  split_ifs with hd
  · have h := changesAt_gather_names (Index.nodup_names_ofMembers (old.map (·.declaration)))
      (Index.nodup_names_ofMembers (new.map (·.declaration))) m p
    simpa only [Index.get?_ofMembers] using h
  · rfl

theorem changesAt_emissions_cons (old new : Structure) (m : String) (p : List String) :
    changesAt (m :: p) (emissions true old new) =
      changesAt p (entryEmissions true (old.named? m) (new.named? m)) := by
  have h := changesAt_gather_names (Index.nodup_names_ofStructure old)
    (Index.nodup_names_ofStructure new) m p
  rw [emissions]
  simpa only [Index.get?_ofStructure] using h

/-- Every record is one of the entries at its path. -/
theorem mem_localChanges_of_mem_entryEmissions {old new : Option Linked} {p : List String}
    {c : Change} (h : c ∈ changesAt p (entryEmissions true old new)) :
    c ∈ localChanges true (Linked.follow old p) (Linked.follow new p) := by
  induction p generalizing old new with
  | nil => rwa [changesAt_entryEmissions_nil] at h
  | cons m p ih =>
    rw [changesAt_entryEmissions_cons] at h
    split_ifs at h with hd
    · exact ih h
    · cases h

theorem mem_localChanges_of_mem_emissions {old new : Structure} {e : Emission}
    (h : e ∈ emissions true old new) :
    e.change ∈ localChanges true (old.at? e.path) (new.at? e.path) := by
  have hc := mem_changesAt h
  cases hp : e.path with
  | nil =>
    rw [hp, emissions, changesAt_gather_nil] at hc
    cases hc
  | cons m p =>
    rw [hp, changesAt_emissions_cons] at hc
    exact mem_localChanges_of_mem_entryEmissions hc

end ApiSurface.Comparison
