import Mathlib
import ApiSurface.Comparison.Depth

/-! Lookup of declarations by name and by path. An index has the names of its siblings in ascending
order, and finds under each of them the last sibling of that name. A path is a top-level name
followed by names of members. -/
namespace ApiSurface

/-- The last of the siblings that have a name. -/
def Declaration.lastNamed? (name : String) (ds : List Declaration) : Option Declaration :=
  ds.reverse.find? (·.name = name)

namespace Declaration

@[simp] theorem lastNamed?_nil (n : String) : lastNamed? n [] = none := rfl

theorem lastNamed?_concat (n : String) (ds : List Declaration) (d : Declaration) :
    lastNamed? n (ds ++ [d]) = if d.name = n then some d else lastNamed? n ds := by
  by_cases h : d.name = n <;> simp [lastNamed?, h]

theorem lastNamed?_append (n : String) (ds es : List Declaration) :
    lastNamed? n (ds ++ es) = (lastNamed? n es).or (lastNamed? n ds) := by
  simp [lastNamed?, List.find?_append]

theorem name_of_lastNamed? {n : String} {ds : List Declaration} {d : Declaration}
    (h : lastNamed? n ds = some d) : d.name = n := by
  simpa using List.find?_some h

theorem mem_of_lastNamed? {n : String} {ds : List Declaration} {d : Declaration}
    (h : lastNamed? n ds = some d) : d ∈ ds :=
  List.mem_reverse.mp (List.mem_of_find?_eq_some h)

end Declaration

namespace Index

theorem mem_names_put (name n : String) (l : Linked) (es : List (String × Linked)) :
    n ∈ (put name l es).map (·.1) ↔ n = name ∨ n ∈ es.map (·.1) := by
  induction es with
  | nil => simp [put]
  | cons e es ih =>
    rw [put]
    split_ifs with h1 h2
    · simp
    · simp only [List.map_cons, List.mem_cons, ih]
      tauto
    · have he : name = e.1 := le_antisymm (not_lt.mp h2) (not_lt.mp h1)
      simp [he]

theorem pairwise_put (name : String) (l : Linked) {es : List (String × Linked)}
    (h : (es.map (·.1)).Pairwise (· < ·)) : ((put name l es).map (·.1)).Pairwise (· < ·) := by
  induction es with
  | nil => simp [put]
  | cons e es ih =>
    have hh := List.pairwise_cons.mp h
    rw [put]
    split_ifs with h1 h2
    · refine List.pairwise_cons.mpr ⟨fun n hn => ?_, h⟩
      rcases List.mem_cons.mp hn with rfl | hn
      · exact h1
      · exact h1.trans (hh.1 n hn)
    · refine List.pairwise_cons.mpr ⟨fun n hn => ?_, ih hh.2⟩
      rcases (mem_names_put name n l es).mp hn with rfl | hn
      · exact h2
      · exact hh.1 n hn
    · have he : name = e.1 := le_antisymm (not_lt.mp h2) (not_lt.mp h1)
      simpa [he] using h

theorem find?_put_self (name : String) (l : Linked) (es : List (String × Linked)) :
    (put name l es).find? (·.1 = name) = some (name, l) := by
  induction es with
  | nil => simp [put]
  | cons e es ih =>
    rw [put]
    split_ifs with h1 h2
    · simp
    · simpa [h2.ne] using ih
    · simp

theorem find?_put_of_ne {name n : String} (h : name ≠ n) (l : Linked)
    (es : List (String × Linked)) :
    (put name l es).find? (·.1 = n) = es.find? (·.1 = n) := by
  induction es with
  | nil => simp [put, h]
  | cons e es ih =>
    obtain ⟨m, k⟩ := e
    rw [put]
    split_ifs with h1 h2
    · simp [h]
    · by_cases hm : m = n
      · simp [hm]
      · simpa [hm] using ih
    · have hm : name = m := le_antisymm (not_lt.mp h2) (not_lt.mp h1)
      simp [h, hm ▸ h]

theorem entries_ofList_concat (parent : Option String) (ds : List Declaration) (d : Declaration) :
    (ofList parent (ds ++ [d])).entries = put d.name ⟨d, parent⟩ (ofList parent ds).entries := by
  simp [ofList]

/-- The names of an index ascend strictly. -/
theorem pairwise_names_ofList (parent : Option String) (ds : List Declaration) :
    (ofList parent ds).names.Pairwise (· < ·) := by
  induction ds using List.reverseRecOn with
  | nil => exact List.Pairwise.nil
  | append_singleton ds d ih =>
    rw [names, entries_ofList_concat]
    exact pairwise_put d.name _ ih

/-- An index finds the last sibling of a name, linked to the container. -/
theorem get?_ofList (parent : Option String) (ds : List Declaration) (n : String) :
    (ofList parent ds).get? n = (Declaration.lastNamed? n ds).map (⟨·, parent⟩) := by
  induction ds using List.reverseRecOn with
  | nil => rfl
  | append_singleton ds d ih =>
    rw [get?, entries_ofList_concat, Declaration.lastNamed?_concat]
    split_ifs with h
    · subst h
      simp [find?_put_self]
    · rw [find?_put_of_ne h]
      exact ih

theorem mem_names (i : Index) (n : String) : n ∈ i.names ↔ i.contains n := by
  simp [names, contains, get?, List.find?_isSome]

theorem nodup_names_ofList (parent : Option String) (ds : List Declaration) :
    (ofList parent ds).names.Nodup :=
  (pairwise_names_ofList parent ds).imp ne_of_lt

end Index

/-! Members of declarations and paths of names. -/

/-- The member of a class or an interface that a name stands for. -/
def Linked.member? (l : Linked) (n : String) : Option Linked :=
  (Declaration.lastNamed? n l.declaration.members).map (⟨·, some l.name⟩)

/-- The declaration of a structure that a name stands for. -/
def Structure.named? (s : Structure) (n : String) : Option Linked :=
  (Declaration.lastNamed? n s).map (⟨·, none⟩)

/-- The declaration to which names of members lead. -/
def Linked.follow : Option Linked → List String → Option Linked
  | l, [] => l
  | l, n :: p => follow (l.bind (·.member? n)) p

/-- The declaration at a path: a top-level name, then names of members. -/
def Structure.at? (s : Structure) : List String → Option Linked
  | [] => none
  | n :: p => Linked.follow (named? s n) p

namespace Index

@[simp] theorem get?_ofMembers (l : Option Linked) (n : String) :
    (ofMembers (l.map (·.declaration))).get? n = l.bind (·.member? n) := by
  cases l with
  | none => rfl
  | some l => exact get?_ofList (some l.name) l.declaration.members n

@[simp] theorem get?_ofStructure (s : Structure) (n : String) :
    (ofStructure s).get? n = Structure.named? s n := get?_ofList none s n

theorem nodup_names_ofMembers (d : Option Declaration) : (ofMembers d).names.Nodup := by
  cases d with
  | none => exact List.nodup_nil
  | some d => exact nodup_names_ofList (some d.name) d.members

theorem nodup_names_ofStructure (s : Structure) : (ofStructure s).names.Nodup :=
  nodup_names_ofList none s

end Index

namespace Linked

@[simp] theorem follow_nil (l : Option Linked) : follow l [] = l := rfl

@[simp] theorem follow_cons (l : Option Linked) (n : String) (p : List String) :
    follow l (n :: p) = follow (l.bind (·.member? n)) p := rfl

@[simp] theorem follow_none (p : List String) : follow none p = none := by
  induction p with
  | nil => rfl
  | cons n p ih => exact ih

theorem follow_concat (l : Option Linked) (p : List String) (n : String) :
    follow l (p ++ [n]) = (follow l p).bind (·.member? n) := by
  induction p generalizing l with
  | nil => rfl
  | cons m p ih => exact ih (l.bind (·.member? m))

theorem member?_of_members_eq_nil {l : Linked} (h : l.declaration.members = []) (n : String) :
    l.member? n = none := by simp [member?, h]

end Linked

namespace Structure

@[simp] theorem at?_nil (s : Structure) : at? s [] = none := rfl

@[simp] theorem at?_cons (s : Structure) (n : String) (p : List String) :
    at? s (n :: p) = Linked.follow (named? s n) p := rfl

theorem at?_concat (s : Structure) {p : List String} (h : p ≠ []) (n : String) :
    at? s (p ++ [n]) = (at? s p).bind (·.member? n) := by
  cases p with
  | nil => exact absurd rfl h
  | cons m p => exact Linked.follow_concat (named? s m) p n

end Structure
end ApiSurface
