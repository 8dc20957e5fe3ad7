import ApiSurface.Proofs.Equivalence
import ApiSurface.Proofs.PathDifference

/-! Declarations that only one of two structures has. They are reported through the leaves and the
values of enumerations that are found in them, so one without any of these comes and goes
unreported. -/
namespace ApiSurface

/-- A declaration that reports something itself when it stands on one side only. -/
def Linked.Speaks (l : Linked) : Prop := l.kind.isLeaf ∨ l.declaration.values ≠ []

/-- A path leads from a declaration to one that speaks. -/
def Declaration.Tells (d : Declaration) : Prop :=
  ∃ p l, Linked.follow (some ⟨d, none⟩) p = some l ∧ l.Speaks

/-- A name that only one of two structures declares, with its last declaration there. -/
inductive Structure.Lone (old new : Structure) (n : String) (d : Declaration) : Prop
  | removed (before : Declaration.lastNamed? n old = some d) (after : ∀ e ∈ new, e.name ≠ n)
  | added (before : ∀ e ∈ old, e.name ≠ n) (after : Declaration.lastNamed? n new = some d)

namespace Declaration

theorem lastNamed?_eq_none {n : String} {ds : List Declaration} (h : ∀ d ∈ ds, d.name ≠ n) :
    lastNamed? n ds = none := by
  apply List.find?_eq_none.mpr
  intro d hd
  simpa using h d (List.mem_reverse.mp hd)

theorem values_eq_nil {d : Declaration} (h : d.kind.isContainer) : d.values = [] := by
  cases d with
  | enumeration n vs => cases h
  | _ => rfl

theorem not_silent_of_speaks {l : Linked} (h : l.Speaks) : ¬ l.declaration.Silent := by
  intro hs
  rcases l.kind.sort_of with hk | hk | hk
  · rcases h with hl | hv
    · exact absurd hk (Kind.ne_enumeration_of_isLeaf hl)
    · exact hv ((silent_of_enumeration hk).mp hs)
  · exact not_silent_of_isLeaf hk hs
  · rcases h with hl | hv
    · exact Kind.not_isContainer_of_isLeaf hl hk
    · exact hv (values_eq_nil hk)

/-- What a path leads to from a silent declaration is silent. -/
theorem silent_of_follow {l m : Linked} {p : List String} (hs : l.declaration.Silent)
    (h : Linked.follow (some l) p = some m) : m.declaration.Silent := by
  induction p generalizing l with
  | nil =>
    obtain rfl : l = m := Option.some.inj h
    exact hs
  | cons n p ih =>
    cases hm : l.member? n with
    | none => simp [hm] at h
    | some k =>
      rw [Linked.follow_cons, Option.bind_some, hm] at h
      apply ih ?_ h
      obtain ⟨e, he, rfl⟩ := Option.map_eq_some_iff.mp hm
      by_cases hc : l.kind.isContainer
      · exact (silent_of_isContainer hc).mp hs n e he
      · rw [members_eq_nil hc] at he
        cases he

/-- A declaration that is not silent leads to one that speaks. -/
theorem exists_follow_speaks {l : Linked} (h : ¬ l.declaration.Silent) :
    ∃ p m, Linked.follow (some l) p = some m ∧ m.Speaks := by
  suffices hall : ∀ old new : Option Linked, ∀ l : Linked, old = some l → new = none →
      ¬ l.declaration.Silent → ∃ p m, Linked.follow (some l) p = some m ∧ m.Speaks from
    hall (some l) none l rfl rfl h
  intro old new
  induction old, new using Comparison.entries_induction with
  | step old new ih =>
    rintro l rfl rfl h
    rcases l.kind.sort_of with hk | hk | hk
    · exact ⟨[], l, rfl, .inr (mt (silent_of_enumeration hk).mpr h)⟩
    · exact ⟨[], l, rfl, .inl hk⟩
    · have hdescends := (Comparison.descends_iff_isContainer
        (Comparison.kindsAgree_none_right (some l)) rfl).mpr hk
      rw [silent_of_isContainer hk] at h
      push Not at h
      obtain ⟨n, e, he, hne⟩ := h
      have hmember : l.member? n = some ⟨e, some l.name⟩ := by
        rw [Linked.member?, he, Option.map_some]
      obtain ⟨p, m, hm, hspeaks⟩ := ih hdescends n _ hmember rfl hne
      exact ⟨n :: p, m, by rwa [Linked.follow_cons, Option.bind_some, hmember], hspeaks⟩

/-- A declaration is silent exactly if no path leads to one that speaks. -/
theorem tells_iff_not_silent (d : Declaration) : d.Tells ↔ ¬ d.Silent := by
  constructor
  · rintro ⟨p, l, hl, hspeaks⟩ hs
    exact not_silent_of_speaks hspeaks (silent_of_follow (l := ⟨d, none⟩) hs hl)
  · intro h
    exact exists_follow_speaks h

end Declaration

namespace Comparison

open Linked

/-- The records of one name. -/
def recordsOf (dedupe : Bool) (old new : Structure) (n : String) : List Change :=
  compareEntries dedupe (old.named? n) (new.named? n)

/-- The records of a name that is visited stand together. -/
theorem recordsOf_together {dedupe : Bool} {old new : Structure} {n : String}
    (h : n ∈ names dedupe (Index.ofStructure old) (Index.ofStructure new)) :
    recordsOf dedupe old new n <:+: compare dedupe old new := by
  obtain ⟨before, after, hnames⟩ := List.append_of_mem h
  refine ⟨before.flatMap (recordsOf dedupe old new), after.flatMap (recordsOf dedupe old new), ?_⟩
  have hcompare : compare dedupe old new =
      (names dedupe (Index.ofStructure old) (Index.ofStructure new)).flatMap
        (recordsOf dedupe old new) := by
    simp only [compare, compareIndexes, Index.get?_ofStructure]
    rfl
  rw [hcompare, hnames]
  simp

theorem proper_close (cs : List Change) : proper (close cs) = proper cs := by
  unfold close
  split_ifs with h
  · rw [List.isEmpty_iff.mp h]
  · rw [proper_append]
    exact List.append_nil _

theorem proper_compareIndexes_eq_nil_iff (dedupe : Bool) (old new : Index) :
    proper (compareIndexes dedupe old new) = [] ↔
      ∀ n ∈ names dedupe old new,
        proper (compareEntries dedupe (old.get? n) (new.get? n)) = [] := by
  rw [compareIndexes, proper, List.filter_flatMap, List.flatMap_eq_nil_iff]
  rfl

/-- Separators do not stand alone: two entries report nothing, or something besides separators. -/
theorem compareEntries_eq_nil_of_proper {dedupe : Bool} {old new : Option Linked}
    (h : proper (compareEntries dedupe old new) = []) : compareEntries dedupe old new = [] := by
  induction old, new using entries_induction with
  | step old new ih =>
    rw [compareEntries_eq, proper_append, proper_ownChanges, proper_close,
      List.append_eq_nil_iff] at h
    rw [compareEntries_eq, h.1, List.nil_append, close_eq_nil_iff]
    have hmembers := h.2
    unfold memberChanges at hmembers ⊢
    split_ifs at hmembers ⊢ with hd
    · rw [proper_compareIndexes_eq_nil_iff] at hmembers
      rw [compareIndexes, List.flatMap_eq_nil_iff]
      intro n hn
      have hn := hmembers n hn
      rw [Index.get?_ofMembers, Index.get?_ofMembers] at hn ⊢
      exact ih hd n hn
    · rfl

theorem exists_mem_iff_ne_nil (dedupe : Bool) (old new : Option Linked) :
    (∃ c ∈ compareEntries dedupe old new, c.isSeparator = false) ↔
      compareEntries dedupe old new ≠ [] := by
  constructor
  · rintro ⟨c, hc, -⟩ hnil
    rw [hnil] at hc
    cases hc
  · intro h
    obtain ⟨c, hc⟩ := List.exists_mem_of_ne_nil _ (mt compareEntries_eq_nil_of_proper h)
    obtain ⟨hc, hproper⟩ := List.mem_filter.mp hc
    exact ⟨c, hc, by simpa using hproper⟩

section Lone

variable {old new : Structure} {n : String} {d : Declaration} (h : old.Lone new n d)
include h

theorem mem_names_of_lone (dedupe : Bool) :
    n ∈ names dedupe (Index.ofStructure old) (Index.ofStructure new) := by
  rw [mem_names, Index.get?_ofStructure, Index.get?_ofStructure, Structure.named?,
    Structure.named?]
  cases h with
  | removed before after => simp [before]
  | added before after => simp [after]

/-- A declaration on one side only goes unreported exactly if it is silent. -/
theorem recordsOf_eq_nil_iff (dedupe : Bool) : recordsOf dedupe old new n = [] ↔ d.Silent := by
  rw [recordsOf, compareEntries_eq_nil_iff_agrees, Structure.named?, Structure.named?]
  cases h with
  | removed before after =>
    rw [before, Declaration.lastNamed?_eq_none after]
    exact agrees_none_right ⟨d, none⟩
  | added before after =>
    rw [after, Declaration.lastNamed?_eq_none before]
    exact agrees_none_left ⟨d, none⟩

/-- The records of a name that only one of two structures declares stand together in the comparison.
If a path leads from its declaration to a leaf or to a value of an enumeration, one of them is no
separator; otherwise there are none. -/
theorem exists_record_iff_tells (dedupe : Bool) :
    recordsOf dedupe old new n <:+: compare dedupe old new ∧
      ((∃ c ∈ recordsOf dedupe old new n, c.isSeparator = false) ↔ d.Tells) ∧
      (recordsOf dedupe old new n = [] ↔ ¬ d.Tells) := by
  have hsilent := recordsOf_eq_nil_iff h dedupe
  have htells := Declaration.tells_iff_not_silent d
  refine ⟨recordsOf_together (mem_names_of_lone h dedupe), ?_, ?_⟩
  · rw [htells, ← hsilent]
    exact exists_mem_iff_ne_nil dedupe (old.named? n) (new.named? n)
  · rw [htells, not_not]
    exact hsilent

end Lone

/-- A class that is removed together with its property. -/
theorem exists_record_iff_tells_shape :
    Structure.Lone [.classType "Shape" [.property "area" "number"] none] [] "Shape"
        (.classType "Shape" [.property "area" "number"] none) ∧
      ∃ c ∈ recordsOf true [.classType "Shape" [.property "area" "number"] none] [] "Shape",
        c.isSeparator = false := by
  have h : Structure.Lone [.classType "Shape" [.property "area" "number"] none] [] "Shape"
      (.classType "Shape" [.property "area" "number"] none) := .removed rfl (by simp)
  have htells : (Declaration.classType "Shape" [.property "area" "number"] none).Tells :=
    ⟨["area"], ⟨.property "area" "number", some "Shape"⟩, rfl, .inl rfl⟩
  exact ⟨h, (exists_record_iff_tells h true).2.1.mpr htells⟩

/-- A class without members comes unreported. -/
theorem not_exists_record_marker :
    Structure.Lone [] [.classType "Marker" [] none] "Marker" (.classType "Marker" [] none) ∧
      ¬ ∃ c ∈ compare false [] [.classType "Marker" [] none], c.isSeparator = false := by
  have hcompare : compare false [] [.classType "Marker" [] none] = [] := by cbv
  refine ⟨.added (by simp) rfl, ?_⟩
  rw [hcompare]
  simp

end Comparison
end ApiSurface
