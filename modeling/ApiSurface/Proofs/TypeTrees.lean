import ApiSurface.Extraction

/-! Types by themselves: the syntax tree behind a rendered type. -/
namespace ApiSurface
open Source

/-- The syntax tree of a type that stands by itself. -/
def typeTree? (type : String) : Option TypeTerm :=
  match itemsOf ("type __Rendered = " ++ type ++ ";\n").toList with
  | .ok (.typeAlias _ t :: _) => some t
  | _ => none

/-- A type is rendered as its tree tells. -/
theorem renderType_eq_ok_iff {type text : String} :
    renderType type = .ok text ↔ ∃ t, typeTree? type = some t ∧ t.text = .ok text := by
  unfold renderType typeTree?
  dsimp only
  generalize itemsOf ("type __Rendered = " ++ type ++ ";\n").toList = items
  rcases items with fault | (_ | ⟨i, is⟩)
  · exact ⟨nofun, fun ⟨_, h, _⟩ => nomatch h⟩
  · exact ⟨nofun, fun ⟨_, h, _⟩ => nomatch h⟩
  cases i with
  | typeAlias name t =>
    constructor
    · intro h
      refine ⟨t, rfl, ?_⟩
      cases ht : t.text with
      | error r =>
        have h' : (t.text.mapError _ : Except Fault String) = .ok text := h
        rw [ht] at h'
        cases h'
      | ok s =>
        have h' : (t.text.mapError _ : Except Fault String) = .ok text := h
        rw [ht] at h'
        cases h'
        rfl
    · rintro ⟨t', e, ht⟩
      cases e
      show (t.text.mapError _ : Except Fault String) = .ok text
      rw [ht]
      rfl
  | _ => exact ⟨nofun, fun ⟨_, h, _⟩ => nomatch h⟩

/-- What is told of a rendered type by its text alone. -/
theorem eq_ok_of_toOption {x : Except Fault String} {text : String}
    (h : x.toOption = some text) : x = .ok text := by
  cases x with
  | error f => cases h
  | ok s =>
    cases h
    rfl

/-- A reference whose next word stands on a line of its own: behind an arrow, on one line, the two
read as a test of a parameter without its type. -/
theorem renderType_infer_newline :
    renderType "() => infer\nis" = .ok "() => infer is" ∧
      ∀ text, renderType "() => infer is" ≠ .ok text := by
  refine ⟨eq_ok_of_toOption (by decide +kernel), fun text h => ?_⟩
  have hn : (renderType "() => infer is").toOption = none := by decide +kernel
  rw [h] at hn
  cases hn

/-- The type is one of a function whose only parameter need not be there. -/
def takesOptional : TypeTerm → Bool
  | .function _ [.named _ true _] _ => true
  | _ => false

/-- The type is the one of a string. -/
def isString : TypeTerm → Bool
  | .string _ => true
  | _ => false

/-- Trees that a test tells apart differ. -/
theorem exists_trees_ne {x y : Option TypeTerm} {test : TypeTerm → Bool}
    (hx : x.map test = some true) (hy : y.map test = some false) :
    ∃ t u, x = some t ∧ y = some u ∧ t ≠ u := by
  obtain ⟨t, rfl, ht⟩ := Option.map_eq_some_iff.1 hx
  obtain ⟨u, rfl, hu⟩ := Option.map_eq_some_iff.1 hy
  exact ⟨t, u, rfl, rfl, by rintro rfl; simp [ht] at hu⟩

/-- An optional parameter renders like one that is not, and a string with quotes in it like a union
of two strings. -/
theorem renderType_collapses :
    (∃ t u, typeTree? "(a?: A) => B" = some t ∧ typeTree? "(a: A) => B" = some u ∧ t ≠ u) ∧
      renderType "(a?: A) => B" = .ok "(a: A) => B" ∧
      renderType "(a: A) => B" = .ok "(a: A) => B" ∧
      (∃ t u, typeTree? "'a\" | \"b'" = some t ∧ typeTree? "\"a\" | \"b\"" = some u ∧ t ≠ u) ∧
      renderType "'a\" | \"b'" = .ok "\"a\" | \"b\"" ∧
      renderType "\"a\" | \"b\"" = .ok "\"a\" | \"b\"" := by
  refine ⟨?_, eq_ok_of_toOption (by decide +kernel), eq_ok_of_toOption (by decide +kernel), ?_,
    eq_ok_of_toOption (by decide +kernel), eq_ok_of_toOption (by decide +kernel)⟩
  · have hx : (typeTree? "(a?: A) => B").map takesOptional = some true := by decide +kernel
    have hy : (typeTree? "(a: A) => B").map takesOptional = some false := by decide +kernel
    exact exists_trees_ne hx hy
  · have hx : (typeTree? "'a\" | \"b'").map isString = some true := by decide +kernel
    have hy : (typeTree? "\"a\" | \"b\"").map isString = some false := by decide +kernel
    exact exists_trees_ne hx hy

end ApiSurface
