import ApiSurface.Source.Lexer

/-! Scanners take from the front of a text, and those of tokens take a character at least. -/
namespace ApiSurface.Source
open Text Text.Scan

section

variable {α β : Type}

theorem scan_bind_eq_some {s : Scan α} {k : α → Scan β} {cs : List Char} {r : β × List Char} :
    (s >>= k) cs = some r ↔ ∃ a mid, s cs = some (a, mid) ∧ k a mid = some r := by
  show (s cs).bind (fun x => k x.1 x.2) = some r ↔ _
  simp [Option.bind_eq_some_iff]

theorem scan_bind_apply (s : Scan α) (k : α → Scan β) (cs : List Char) :
    (s >>= k) cs = (s cs).bind fun x => k x.1 x.2 := rfl

theorem scan_map_apply (f : α → β) (s : Scan α) (cs : List Char) :
    (f <$> s) cs = (s cs).map fun r => (f r.1, r.2) := by
  show (s cs).bind _ = _
  cases s cs <;> rfl

/-- What the scanner leaves is an end of the text. -/
def Trims (s : Scan α) : Prop :=
  ∀ ⦃cs rest : List Char⦄ ⦃a : α⦄, s cs = some (a, rest) → rest <:+ cs

namespace Trims

theorem pure (a : α) : Trims (Pure.pure a : Scan α) := by
  intro cs rest b h
  cases h
  exact List.suffix_refl _

theorem fail : Trims (Scan.fail : Scan α) := nofun

theorem bind {s : Scan α} {k : α → Scan β} (hs : Trims s) (hk : ∀ a, Trims (k a)) :
    Trims (s >>= k) := by
  intro cs rest b h
  obtain ⟨a, mid, ha, hb⟩ := scan_bind_eq_some.mp h
  exact (hk a hb).trans (hs ha)

theorem map {s : Scan α} (f : α → β) (hs : Trims s) : Trims (f <$> s) :=
  hs.bind fun a => pure (f a)

theorem ite {c : Prop} [Decidable c] {s s' : Scan α} (hs : Trims s) (hs' : Trims s') :
    Trims (if c then s else s') := by
  split
  · exact hs
  · exact hs'

theorem peek : Trims peek? := by
  intro cs rest c? h
  cases h
  exact List.suffix_refl _

theorem run (p : Char → Bool) : Trims (Scan.run p) := by
  intro cs rest ds h
  cases h
  exact List.dropWhile_suffix _

theorem someRun (p : Char → Bool) : Trims (Scan.someRun p) := by
  apply (run p).bind
  intro ds
  split
  · exact fail
  · exact pure _

end Trims

/-- What the scanner leaves is an end of the text, and it takes a character at least. -/
def Takes (s : Scan α) : Prop :=
  ∀ ⦃cs rest : List Char⦄ ⦃a : α⦄, s cs = some (a, rest) → rest <:+ cs ∧ rest.length < cs.length

namespace Takes

theorem trims {s : Scan α} (hs : Takes s) : Trims s := fun _ _ _ h => (hs h).1

theorem fail : Takes (Scan.fail : Scan α) := nofun

theorem next : Takes Scan.next := by
  intro cs rest c h
  cases cs <;> cases h
  exact ⟨List.suffix_cons _ _, Nat.lt_succ_self _⟩

theorem char (c : Char) : Takes (Scan.char c) := by
  intro cs rest u h
  cases cs with
  | nil => cases h
  | cons d cs =>
    obtain ⟨-, h⟩ := Option.ite_none_right_eq_some.mp h
    cases h
    exact ⟨List.suffix_cons _ _, Nat.lt_succ_self _⟩

/-- The first scanner takes one. -/
theorem bind {s : Scan α} {k : α → Scan β} (hs : Takes s) (hk : ∀ a, Trims (k a)) :
    Takes (s >>= k) := by
  intro cs rest b h
  obtain ⟨a, mid, ha, hb⟩ := scan_bind_eq_some.mp h
  have hsuffix := hk a hb
  exact ⟨hsuffix.trans (hs ha).1, Nat.lt_of_le_of_lt hsuffix.length_le (hs ha).2⟩

/-- The second scanner takes one. -/
theorem bindTrims {s : Scan α} {k : α → Scan β} (hs : Trims s) (hk : ∀ a, Takes (k a)) :
    Takes (s >>= k) := by
  intro cs rest b h
  obtain ⟨a, mid, ha, hb⟩ := scan_bind_eq_some.mp h
  have hsuffix := hs ha
  exact ⟨(hk a hb).1.trans hsuffix, Nat.lt_of_lt_of_le (hk a hb).2 hsuffix.length_le⟩

theorem ite {c : Prop} [Decidable c] {s s' : Scan α} (hs : Takes s) (hs' : Takes s') :
    Takes (if c then s else s') := by
  split
  · exact hs
  · exact hs'

end Takes

end

/-! Escapes. -/

namespace Escape

theorem fixed_apply (n : Nat) (cs : List Char) :
    fixed n cs = if n ≤ cs.length then (hexNumber? (cs.take n)).map (·, cs.drop n) else none := by
  have hl : (cs.take n).length = n ↔ n ≤ cs.length := by
    rw [List.length_take]
    omega
  by_cases hn : n ≤ cs.length
  · rw [if_pos hn, fixed, show guard ((cs.take n).length = n) = some () from if_pos (hl.2 hn)]
    cases hexNumber? (cs.take n) <;> rfl
  · rw [if_neg hn, fixed, show guard ((cs.take n).length = n) = none from if_neg (mt hl.1 hn)]
    rfl

theorem trims_fixed (n : Nat) : Trims (fixed n) := by
  intro cs rest a h
  rw [fixed_apply] at h
  obtain ⟨-, h⟩ := Option.ite_none_right_eq_some.mp h
  obtain ⟨m, -, h⟩ := Option.map_eq_some_iff.mp h
  cases h
  exact List.drop_suffix _ _

theorem trims_braced : Trims braced := by
  apply (Trims.someRun _).bind
  intro ds
  apply (Takes.char _).trims.bind
  intro _
  split
  · exact .ite (.pure _) .fail
  · exact .fail

theorem trims_unicode : Trims unicode := by
  apply Trims.peek.bind
  intro c?
  split
  · exact (Takes.char _).trims.bind fun _ => trims_braced
  · exact trims_fixed 4

theorem trims_lineFeed : Trims lineFeed := by
  intro cs rest u h
  unfold lineFeed at h
  split at h
  · cases h
    exact List.suffix_cons _ _
  · cases h
    exact List.suffix_refl _

theorem takes_unit : Takes Escape.unit := by
  apply Takes.next.bind
  intro c
  split
  iterate 6 exact .pure _
  · exact (trims_fixed 2).map _
  · exact trims_unicode.map _
  · exact trims_lineFeed.bind fun _ => .pure _
  · apply Trims.peek.bind
    intro c?
    split
    · exact .ite .fail (.pure _)
    · exact .pure _
  · exact .ite .fail (.ite (.pure _) (.pure _))

end Escape

/-! Strings and identifiers. -/

theorem trims_stringUnits (quote : Char) (n : Nat) : Trims (stringUnits quote n) := by
  induction n with
  | zero => exact .fail
  | succ n ih =>
    apply Takes.next.trims.bind
    intro c
    split
    · exact Escape.takes_unit.trims.bind fun u => ih.bind fun us => .pure _
    · exact .ite (.pure _) (.ite .fail (ih.map _))

theorem trims_stringBody (quote : Char) : Trims (stringBody quote) :=
  fun cs _ _ h => (trims_stringUnits quote (cs.length + 1)).map _ h

theorem takes_identifierChar (p : Char → Bool) : Takes (identifierChar p) := by
  apply Takes.next.bind
  intro c
  split
  · apply (Takes.char _).trims.bind
    intro _
    exact Escape.trims_unicode.bind fun _ => .ite (.pure _) .fail
  · exact .ite (.pure _) .fail

theorem trims_identifierRest (n : Nat) : Trims (identifierRest n) := by
  induction n with
  | zero => exact .fail
  | succ n ih =>
    apply Trims.peek.bind
    intro c?
    split
    · exact .pure _
    · exact .ite ((takes_identifierChar _).trims.bind fun _ => ih.bind fun _ => .pure _) (.pure _)

theorem takes_identifier : Takes identifier := by
  have hrest : Trims fun cs => identifierRest (cs.length + 1) cs :=
    fun cs _ _ h => trims_identifierRest (cs.length + 1) h
  exact (takes_identifierChar _).bind fun _ => hrest.bind fun _ => .pure _

/-! Numbers. -/

namespace Numeral

theorem takes_digits (p : Char → Bool) : Takes (digits p) := by
  intro cs rest ds h
  obtain ⟨run, mid, hrun, h⟩ := scan_bind_eq_some.mp h
  cases hrun
  split at h
  · next hparted =>
    cases h
    have hne : cs.takeWhile (fun c => p c || c = '_') ≠ [] := by
      intro hnil
      rw [hnil] at hparted
      cases hparted
    have hsplit := congrArg List.length
      (List.takeWhile_append_dropWhile (p := fun c => p c || c = '_') (l := cs))
    have hpos := List.length_pos_iff.mpr hne
    rw [List.length_append] at hsplit
    exact ⟨List.dropWhile_suffix _, by omega⟩
  · cases h

theorem trims_maybe (p : Char → Bool) : Trims (maybe p) := by
  apply Trims.peek.bind
  intro c?
  split
  · exact .ite (Takes.next.trims.map _) (.pure _)
  · exact .pure _

theorem trims_exponent : Trims exponent := by
  apply (trims_maybe _).bind
  intro mark
  split
  · exact .pure _
  · exact (trims_maybe _).bind fun _ => (takes_digits _).trims.bind fun _ => .pure _

theorem trims_fraction : Trims fraction := by
  apply Trims.peek.bind
  intro c?
  split
  · exact .ite (takes_digits _).trims (.pure _)
  · exact .pure _

theorem trims_integer (spelling : List Char) : Trims (integer spelling) := by
  apply (trims_maybe _).bind
  intro mark
  split <;> exact .pure _

/-- A decimal has a digit, perhaps behind a point. -/
theorem takes_decimal : Takes decimal := by
  apply Takes.bindTrims (trims_maybe _)
  intro point
  split
  · apply (takes_digits _).bind
    intro whole
    apply Trims.ite (Trims.fail.bind fun _ => ?_) ?_
    all_goals
      apply (trims_maybe _).bind
      intro point
      split
      · apply trims_exponent.bind
        intro e
        split
        · exact trims_integer _
        · exact .pure _
      · exact trims_fraction.bind fun _ => trims_exponent.bind fun _ => .pure _
  · exact (takes_digits _).bind fun _ => trims_exponent.bind fun _ => .pure _

theorem takes_literal : Takes literal := by
  intro cs rest l h
  unfold literal at h
  split at h
  · split at h
    · obtain ⟨hsuffix, hlength⟩ := (takes_digits _).bind (fun _ => trims_integer _) h
      refine ⟨hsuffix.trans ((List.suffix_cons _ _).trans (List.suffix_cons _ _)), ?_⟩
      rw [List.length_cons, List.length_cons]
      omega
    · exact takes_decimal h
  · exact takes_decimal h

theorem takes_scan : Takes Numeral.scan := by
  apply takes_literal.bind
  intro l
  apply Trims.peek.bind
  intro c?
  split
  · exact .ite .fail (.pure _)
  · exact .pure _

end Numeral

end ApiSurface.Source
