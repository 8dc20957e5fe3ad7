import ApiSurface.Proofs.PageTags

/-! The lines of a page, next to those of a text report. Behind its chip a line of a page shows what
the line of a text report shows behind its sign, once the entities are undone, and the chip names
what the sign stands for. So two pages have the same lines exactly if the records agree in kind and
in the text that is shown. -/
namespace ApiSurface
namespace Text

/-! Entities. -/

/-- A text in which the entities of the characters `&`, `<` and `>` are undone. -/
def unescape : List Char → List Char
  | '&' :: 'a' :: 'm' :: 'p' :: ';' :: cs => '&' :: unescape cs
  | '&' :: 'l' :: 't' :: ';' :: cs => '<' :: unescape cs
  | '&' :: 'g' :: 't' :: ';' :: cs => '>' :: unescape cs
  | c :: cs => c :: unescape cs
  | [] => []

theorem unescape_cons {c : Char} (h : c ≠ '&') (cs : List Char) :
    unescape (c :: cs) = c :: unescape cs := by
  rw [unescape]
  all_goals
    rintro - rfl
    exact absurd rfl h

theorem unescape_elementChar (c : Char) (cs : List Char) :
    unescape (elementChar c ++ cs) = c :: unescape cs := by
  unfold elementChar
  split_ifs with hand hless hgreater
  · subst hand
    rfl
  · subst hless
    rfl
  · subst hgreater
    rfl
  · exact unescape_cons hand cs

/-- Undoing the entities of an escaped text gives the text back, whatever comes behind it. -/
theorem unescape_escapeElement (s : String) (cs : List Char) :
    unescape ((escapeElement s).toList ++ cs) = s.toList ++ unescape cs := by
  rw [escapeElement, String.toList_ofList]
  induction s.toList with
  | nil => rfl
  | cons x xs ih =>
    rw [List.flatMap_cons, List.append_assoc, unescape_elementChar, ih, List.cons_append]

theorem escapeElement_append (s t : String) :
    escapeElement (s ++ t) = escapeElement s ++ escapeElement t := by
  simp [escapeElement]

end Text

namespace Change

/-- Two records that are of one kind and show the same text behind the sign or the chip. -/
structure Agree (c d : Change) : Prop where
  alike : c.Alike d
  text : c.detail ++ c.valueText = d.detail ++ d.valueText

end Change

namespace Report

open Text

/-- The class and the word of a chip for the kind of a record. -/
inductive NamesKind : Change → String → String → Prop
  | added (group detail new : String) : NamesKind (.added group detail new) "added" "ADDED"
  | removed (group detail old : String) : NamesKind (.removed group detail old) "removed" "REMOVED"
  | changed (group detail old new : String) :
      NamesKind (.changed group detail old new) "changed" "CHANGED"

/-- A line of a page that shows a record: a separator is a break. In front of any other record
stands a chip that names its kind, and the text behind the chip is, once the entities are undone,
what a text report shows behind the sign and the space. -/
inductive Shows : Change → String → Prop
  | separator : Shows .separator "<br>"
  | record {c : Change} {style label text : String} (hkind : NamesKind c style label)
      (h : unescape text.toList = c.display.toList.drop 2) :
      Shows c (chip style label ++ text ++ "</div>")

namespace NamesKind

variable {c d : Change} {style label : String}

theorem drop_display (h : NamesKind c style label) :
    c.display.toList.drop 2 = (c.detail ++ c.valueText).toList := by
  cases h <;> simp [Change.display, Change.sign, Change.detail]

theorem markup_eq (h : NamesKind c style label) :
    c.markup = chip style label ++ escapeElement (c.detail ++ c.valueText) ++ "</div>" := by
  rw [escapeElement_append, ← String.append_assoc]
  cases h <;> rfl

theorem alike {style' label' : String} (h : NamesKind c style label)
    (h' : NamesKind d style' label') (hstyle : style = style') : c.Alike d := by
  cases h <;> cases h' <;> simp at hstyle <;> constructor

theorem label_eq {style' label' : String} (h : NamesKind c style label)
    (h' : NamesKind d style' label') (hstyle : style = style') : label = label' := by
  cases h <;> cases h' <;> simp at hstyle ⊢

/-- The second tag of a line with a chip is the one of the chip. -/
theorem secondTag (h : NamesKind c style label) (s : String) :
    (tags (chip style label ++ s))[1]? =
      some ("<div class=\"chip chip-" ++ style ++ "\">").toList := by
  have hchip : Closed (chip style label) ∧ (tags (chip style label))[1]? =
      some ("<div class=\"chip chip-" ++ style ++ "\">").toList := by
    cases h <;> decide
  rw [hchip.1.tags_append, List.getElem?_append_left (List.getElem?_eq_some_iff.mp hchip.2).1]
  exact hchip.2

theorem shows_markup (h : NamesKind c style label) : Shows c c.markup := by
  rw [h.markup_eq]
  refine .record h ?_
  have htext := unescape_escapeElement (c.detail ++ c.valueText) []
  rwa [List.append_nil, unescape, List.append_nil, ← h.drop_display] at htext

end NamesKind

theorem shows_markup (c : Change) : Shows c c.markup := by
  cases c with
  | separator => exact .separator
  | added g d n => exact (NamesKind.added g d n).shows_markup
  | removed g d o => exact (NamesKind.removed g d o).shows_markup
  | changed g d o n => exact (NamesKind.changed g d o n).shows_markup

namespace Shows

variable {c d : Change} {style label style' label' text text' : String}

/-- A line with a chip is no break. -/
theorem ne_break (h : NamesKind c style label) :
    chip style label ++ text ++ "</div>" ≠ "<br>" := by
  intro hline
  have hbreak : (tags "<br>")[1]? = none := by decide
  rw [← hline, String.append_assoc, h.secondTag] at hbreak
  cases hbreak

/-- Lines with a chip are equal only if they have one chip and one text. -/
theorem alike_and_text_eq (h : NamesKind c style label) (h' : NamesKind d style' label')
    (hline : chip style label ++ text ++ "</div>" = chip style' label' ++ text' ++ "</div>") :
    c.Alike d ∧ text = text' := by
  have htag := congrArg (fun s => (tags s)[1]?) hline
  simp only [String.append_assoc, h.secondTag, h'.secondTag] at htag
  have hstyle : style = style' := String.toList_inj.mp (by simpa using htag)
  obtain rfl := hstyle
  obtain rfl := h.label_eq h' rfl
  exact ⟨h.alike h' rfl, (String.append_right_inj _).mp ((String.append_left_inj _).mp hline)⟩

/-- Records that one line shows agree. -/
theorem agree {line line' : String} (h : Shows c line) (h' : Shows d line') (hline : line = line') :
    c.Agree d := by
  cases h with
  | separator =>
    cases h' with
    | separator => exact ⟨.separator, rfl⟩
    | record hkind => exact absurd hline.symm (ne_break hkind)
  | record hkind hs =>
    cases h' with
    | separator => exact absurd hline (ne_break hkind)
    | record hkind' ht =>
      obtain ⟨halike, rfl⟩ := alike_and_text_eq hkind hkind' hline
      refine ⟨halike, String.toList_inj.mp ?_⟩
      rw [← hkind.drop_display, ← hs, ht, hkind'.drop_display]

end Shows

theorem markup_eq_iff (c d : Change) : c.markup = d.markup ↔ c.Agree d := by
  constructor
  · intro h
    exact (shows_markup c).agree (shows_markup d) h
  · rintro ⟨halike, htext⟩
    cases halike with
    | separator => rfl
    | added =>
      rw [(NamesKind.added ..).markup_eq, htext, (NamesKind.added ..).markup_eq]
    | removed =>
      rw [(NamesKind.removed ..).markup_eq, htext, (NamesKind.removed ..).markup_eq]
    | changed =>
      rw [(NamesKind.changed ..).markup_eq, htext, (NamesKind.changed ..).markup_eq]

/-- A page has one line for each record, in order, which shows behind its chip what the line of a
text report shows behind its sign. Two pages have the same lines exactly if their records agree in
kind and in the text that is shown. -/
theorem lines_show_changes (title : String) (versions : Option (String × String))
    (cs : List Change) :
    List.Forall₂ Shows cs (Page.ofChanges title versions cs).lines ∧
      ∀ title' versions' cs', (Page.ofChanges title versions cs).lines =
          (Page.ofChanges title' versions' cs').lines ↔ List.Forall₂ Change.Agree cs cs' := by
  constructor
  · exact List.forall₂_map_right_iff.mpr (List.forall₂_same.mpr fun c _ => shows_markup c)
  · intro title' versions' cs'
    show cs.map Change.markup = cs'.map Change.markup ↔ _
    rw [← List.forall₂_eq_eq_eq, List.forall₂_map_left_iff, List.forall₂_map_right_iff]
    simp only [markup_eq_iff]

end Report
end ApiSurface
