import ApiSurface.Proofs.AliasedTypes
import ApiSurface.Proofs.TypeTrees

/-! Rendered types are read back. Where no part of a type can be taken for another and its strings
need no escapes, its text is rendered as it is, and two such types have one text exactly if they are
one type, apart from what a text does not show. -/
namespace ApiSurface
open Source

theorem typeTree?_eq_some {type : String} {t : TypeTerm} : typeTree? type = some t ↔
    ∃ name items, parse? (aliasText type.toList) = some (.typeAlias name t :: items) := by
  unfold typeTree?
  rw [toList_alias]
  unfold itemsOf
  generalize parse? (aliasText type.toList) = items
  constructor
  · intro h
    rcases items with _ | _ | ⟨i, items⟩
    · cases h
    · cases h
    · cases i with
      | typeAlias name u =>
        cases h
        exact ⟨name, items, rfl⟩
      | _ => cases h
  · rintro ⟨name, items, rfl⟩
    rfl

/-- The text of a type reads as the type. -/
theorem typeTree?_text {type text : String} {t : TypeTerm} (ht : typeTree? type = some t)
    (htext : t.text = .ok text) (hl : t.legible) (hp : t.pieces.all Piece.isClean) :
    ∃ u, typeTree? text = some u ∧ u.erased = t.erased := by
  obtain ⟨name, items, hparse⟩ := typeTree?_eq_some.1 ht
  obtain ⟨m, ts, rest, hread⟩ := type_of_parse? hparse
  have hrecalled := ((Grammar.grammar_recalls m).type true) hread hl
  have .typeAlias hspelled := spelled_of_parse? hparse _ List.mem_cons_self
  obtain ⟨u, hu, hue⟩ := parse?_of_recalled hrecalled hspelled (List.all_eq_true.1 hp)
  rw [← TypeTerm.text_toList htext] at hu
  exact ⟨u, typeTree?_eq_some.2 ⟨_, _, hu⟩, hue⟩

/-- A rendered type is rendered as it is, and reads as the same type. -/
theorem renderType_idempotent {type text : String} {t : TypeTerm} (ht : typeTree? type = some t)
    (htext : renderType type = .ok text) (hl : t.legible) (hp : t.pieces.all Piece.isClean) :
    renderType text = .ok text ∧ ∃ u, typeTree? text = some u ∧ u.erased = t.erased := by
  obtain ⟨t', ht', htext⟩ := renderType_eq_ok_iff.1 htext
  obtain rfl : t = t' := Option.some.inj (ht.symm.trans ht')
  obtain ⟨u, hu, he⟩ := typeTree?_text ht htext hl hp
  exact ⟨renderType_eq_ok_iff.2 ⟨u, hu, (TypeTerm.text_eq_of_erased he).2 htext⟩, u, hu, he⟩

theorem renderType_idempotent_guard :
    ∃ t, typeTree? "<T>(x?: \x7b a : 'b' ; readonly c?: D<E>[] \x7d) => x is T" = some t ∧
      t.legible ∧ t.pieces.all Piece.isClean ∧
      renderType "(x: \x7b a: \"b\", readonly c?: D<E>[] \x7d) => x is T" =
        .ok "(x: \x7b a: \"b\", readonly c?: D<E>[] \x7d) => x is T" ∧
      ∃ u, typeTree? "(x: \x7b a: \"b\", readonly c?: D<E>[] \x7d) => x is T" = some u ∧
        u.erased = t.erased := by
  have htest : (typeTree? "<T>(x?: \x7b a : 'b' ; readonly c?: D<E>[] \x7d) => x is T").map
      (fun t => t.legible && t.pieces.all Piece.isClean) = some true := by decide +kernel
  have htext : renderType "<T>(x?: \x7b a : 'b' ; readonly c?: D<E>[] \x7d) => x is T" =
      .ok "(x: \x7b a: \"b\", readonly c?: D<E>[] \x7d) => x is T" :=
    eq_ok_of_toOption (by decide +kernel)
  obtain ⟨t, ht, hguard⟩ := Option.map_eq_some_iff.1 htest
  obtain ⟨hl, hp⟩ := Bool.and_eq_true_iff.1 hguard
  exact ⟨t, ht, hl, hp, renderType_idempotent ht htext hl hp⟩

/-- Two types have one text exactly if they are one type, apart from what a text does not show. -/
theorem renderType_eq_iff {a b r s : String} {t u : TypeTerm} (ha : typeTree? a = some t)
    (hb : typeTree? b = some u) (hr : renderType a = .ok r) (hs : renderType b = .ok s)
    (ht : t.legible) (hu : u.legible) (hpt : t.pieces.all Piece.isClean)
    (hpu : u.pieces.all Piece.isClean) : r = s ↔ t.erased = u.erased := by
  obtain ⟨t', ha', hr⟩ := renderType_eq_ok_iff.1 hr
  obtain rfl : t = t' := Option.some.inj (ha.symm.trans ha')
  obtain ⟨u', hb', hs⟩ := renderType_eq_ok_iff.1 hs
  obtain rfl : u = u' := Option.some.inj (hb.symm.trans hb')
  constructor
  · rintro rfl
    obtain ⟨v, hv, hvt⟩ := typeTree?_text ha hr ht hpt
    obtain ⟨w, hw, hwu⟩ := typeTree?_text hb hs hu hpu
    obtain rfl : v = w := Option.some.inj (hv.symm.trans hw)
    exact hvt.symm.trans hwu
  · intro he
    exact Except.ok.inj (((TypeTerm.text_eq_of_erased he).1 hr).symm.trans hs)

theorem renderType_eq_iff_quotes :
    ∃ t u, typeTree? "<T>(a?: A) => 'b'" = some t ∧ typeTree? "(a: A) => \"b\"" = some u ∧
      (renderType "<T>(a?: A) => 'b'" = .ok "(a: A) => \"b\"") ∧
      (renderType "(a: A) => \"b\"" = .ok "(a: A) => \"b\"") ∧ t.erased = u.erased := by
  have htest : (typeTree? "<T>(a?: A) => 'b'").map
      (fun t => t.legible && t.pieces.all Piece.isClean) = some true := by decide +kernel
  have htest' : (typeTree? "(a: A) => \"b\"").map
      (fun t => t.legible && t.pieces.all Piece.isClean) = some true := by decide +kernel
  have hr : renderType "<T>(a?: A) => 'b'" = .ok "(a: A) => \"b\"" :=
    eq_ok_of_toOption (by decide +kernel)
  have hs : renderType "(a: A) => \"b\"" = .ok "(a: A) => \"b\"" :=
    eq_ok_of_toOption (by decide +kernel)
  obtain ⟨t, ht, hguard⟩ := Option.map_eq_some_iff.1 htest
  obtain ⟨u, hu, hguard'⟩ := Option.map_eq_some_iff.1 htest'
  obtain ⟨hl, hp⟩ := Bool.and_eq_true_iff.1 hguard
  obtain ⟨hl', hp'⟩ := Bool.and_eq_true_iff.1 hguard'
  exact ⟨t, u, ht, hu, hr, hs, (renderType_eq_iff ht hu hr hs hl hl' hp hp').1 rfl⟩

end ApiSurface
