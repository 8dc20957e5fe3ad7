import ApiSurface.Comparison.Index

/-! How deep declarations nest. What an index of members finds is less deep than their container,
so a comparison that goes from containers to their members comes to an end. -/
namespace ApiSurface

mutual

/-- How many declarations stand inside each other at the deepest place. -/
def Declaration.depth : Declaration → Nat
  | .classType _ ms _ => Declaration.listDepth ms + 1
  | .interface _ ms _ => Declaration.listDepth ms + 1
  | _ => 1

def Declaration.listDepth : List Declaration → Nat
  | [] => 0
  | d :: ds => max d.depth (Declaration.listDepth ds)

end

theorem Declaration.listDepth_members_lt (d : Declaration) : listDepth d.members < d.depth := by
  cases d <;> simp [Declaration.members, Declaration.depth, Declaration.listDepth]

/-- The depth of a declaration that may be missing. -/
def Linked.depth? (l : Option Linked) : Nat :=
  match l with
  | some l => l.declaration.depth
  | none => 0

namespace Index

def entriesDepth : List (String × Linked) → Nat
  | [] => 0
  | (_, l) :: es => max l.declaration.depth (entriesDepth es)

theorem entriesDepth_put (name : String) (l : Linked) (es : List (String × Linked)) :
    entriesDepth (put name l es) ≤ max l.declaration.depth (entriesDepth es) := by
  induction es with
  | nil => simp [put, entriesDepth]
  | cons e es ih =>
    rw [put]
    split
    · simp [entriesDepth]
    · split <;> simp only [entriesDepth] at * <;> omega

theorem entriesDepth_foldl (parent : Option String) (ds : List Declaration)
    (es : List (String × Linked)) :
    entriesDepth (ds.foldl (fun es d => put d.name ⟨d, parent⟩ es) es)
      ≤ max (entriesDepth es) (Declaration.listDepth ds) := by
  induction ds generalizing es with
  | nil => simp [Declaration.listDepth]
  | cons d ds ih =>
    have h := ih (put d.name ⟨d, parent⟩ es)
    have := entriesDepth_put d.name ⟨d, parent⟩ es
    simp only [List.foldl_cons, Declaration.listDepth] at *
    omega

theorem depth?_find? (p : String × Linked → Bool) (es : List (String × Linked)) :
    Linked.depth? ((es.find? p).map (·.2)) ≤ entriesDepth es := by
  induction es with
  | nil => simp [Linked.depth?]
  | cons e es ih =>
    by_cases h : p e
    · rw [List.find?_cons_of_pos h, entriesDepth]
      exact Nat.le_max_left _ _
    · rw [List.find?_cons_of_neg h, entriesDepth]; omega

/-- What is found in a list of siblings is no deeper than the list. -/
theorem depth?_get?_ofMembers (l : Option Linked) (name : String) :
    Linked.depth? ((ofMembers (l.map (·.declaration))).get? name) ≤ Linked.depth? l - 1 := by
  cases l with
  | none => simp [ofMembers, Index.empty, get?, Linked.depth?]
  | some l =>
    have h := depth?_find? (·.1 = name) (ofMembers (some l.declaration)).entries
    have := entriesDepth_foldl (some l.declaration.name) l.declaration.members []
    have := Declaration.listDepth_members_lt l.declaration
    simp only [ofMembers, ofList, get?, Option.map_some, entriesDepth] at *
    have : Linked.depth? (some l) = l.declaration.depth := rfl
    omega

end Index

end ApiSurface
