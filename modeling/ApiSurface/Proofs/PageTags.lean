import Mathlib
import ApiSurface.Report

/-! The tags of a page. Texts from outside hold no `<` once they are escaped, and every piece of the
page itself ends outside of a tag. So the tags of a page depend on the kinds of its changes, and on
whether it shows versions, but on no text that is put into it. -/
namespace ApiSurface
namespace Text

/-! Tags of a text. -/

/-- The tags of a text, where a tag may be open already. A tag goes from a `<` to the next `>`. -/
def tagsFrom : Option (List Char) → List Char → List (List Char)
  | _, [] => []
  | none, c :: cs => tagsFrom (if c = '<' then some [c] else none) cs
  | some tag, c :: cs =>
    if c = '>' then (tag ++ [c]) :: tagsFrom none cs else tagsFrom (some (tag ++ [c])) cs

/-- What has been read of a tag that is open at the end of a text. -/
def openAfter : Option (List Char) → List Char → Option (List Char)
  | tag, [] => tag
  | none, c :: cs => openAfter (if c = '<' then some [c] else none) cs
  | some tag, c :: cs => openAfter (if c = '>' then none else some (tag ++ [c])) cs

/-- The tags of a text, from the first to the last. -/
def tags (s : String) : List (List Char) := tagsFrom none s.toList

/-- No tag is open at the end of a text. -/
def Closed (s : String) : Prop := openAfter none s.toList = none

instance (s : String) : Decidable (Closed s) := inferInstanceAs (Decidable (_ = _))

theorem tagsFrom_append (tag : Option (List Char)) (xs ys : List Char) :
    tagsFrom tag (xs ++ ys) = tagsFrom tag xs ++ tagsFrom (openAfter tag xs) ys := by
  fun_induction openAfter tag xs with
  | case1 tag => cases tag <;> simp [tagsFrom]
  | case2 c cs ih => simpa [tagsFrom] using ih
  | case3 tag c cs ih =>
    by_cases hc : c = '>'
    · simpa [tagsFrom, hc] using ih
    · simpa [tagsFrom, hc] using ih

theorem openAfter_append (tag : Option (List Char)) (xs ys : List Char) :
    openAfter tag (xs ++ ys) = openAfter (openAfter tag xs) ys := by
  fun_induction openAfter tag xs with
  | case1 tag => rfl
  | case2 c cs ih => simpa [openAfter] using ih
  | case3 tag c cs ih => simpa [openAfter] using ih

theorem Closed.append {s t : String} (hs : Closed s) (ht : Closed t) : Closed (s ++ t) := by
  rw [Closed, String.toList_append, openAfter_append, hs]
  exact ht

theorem Closed.tags_append {s : String} (hs : Closed s) (t : String) :
    tags (s ++ t) = tags s ++ tags t := by
  rw [tags, String.toList_append, tagsFrom_append, hs]
  rfl

/-- A text in which no tag begins. -/
def Plain (s : String) : Prop := '<' ∉ s.toList

instance (s : String) : Decidable (Plain s) := inferInstanceAs (Decidable (¬ _))

theorem tagsFrom_of_plain {xs : List Char} (h : '<' ∉ xs) : tagsFrom none xs = [] := by
  induction xs with
  | nil => rfl
  | cons c cs ih =>
    have hc : c ≠ '<' := fun hc => h (hc ▸ List.mem_cons_self)
    rw [tagsFrom, if_neg hc]
    exact ih fun hm => h (List.mem_cons_of_mem c hm)

theorem openAfter_of_plain {xs : List Char} (h : '<' ∉ xs) : openAfter none xs = none := by
  induction xs with
  | nil => rfl
  | cons c cs ih =>
    have hc : c ≠ '<' := fun hc => h (hc ▸ List.mem_cons_self)
    rw [openAfter, if_neg hc]
    exact ih fun hm => h (List.mem_cons_of_mem c hm)

theorem Plain.append {s t : String} (hs : Plain s) (ht : Plain t) : Plain (s ++ t) := by
  rw [Plain, String.toList_append, List.mem_append, not_or]
  exact ⟨hs, ht⟩

theorem not_mem_elementChar (c : Char) : '<' ∉ elementChar c := by
  unfold elementChar
  split_ifs with h1 h2
  · decide
  · decide
  · decide
  · exact fun h => h2 (List.mem_singleton.mp h).symm

theorem not_mem_attributeChar (c : Char) : '<' ∉ attributeChar c := by
  unfold attributeChar
  split_ifs
  · decide
  · decide
  · decide
  · decide
  · exact not_mem_elementChar c

theorem plain_escapeElement (s : String) : Plain (escapeElement s) := by
  rw [Plain, escapeElement, String.toList_ofList, List.mem_flatMap]
  rintro ⟨c, -, hc⟩
  exact not_mem_elementChar c hc

theorem plain_escapeAttribute (s : String) : Plain (escapeAttribute s) := by
  rw [Plain, escapeAttribute, String.toList_ofList, List.mem_flatMap]
  rintro ⟨c, -, hc⟩
  exact not_mem_attributeChar c hc

theorem plain_toString (n : Nat) : Plain (toString n) := by
  rw [Plain, Nat.toString_eq_ofList_toDigits, String.toList_ofList]
  exact fun h => absurd (Nat.isDigit_of_mem_toDigits (by decide) (by decide) h) (by decide)

/-- Two texts that can be put into the same place without a difference in tags. -/
structure SameTags (s t : String) : Prop where
  tags : tags s = tags t
  left : Closed s
  right : Closed t

namespace SameTags

theorem refl {s : String} (h : Closed s) : SameTags s s := ⟨rfl, h, h⟩

theorem of_plain {s t : String} (hs : Plain s) (ht : Plain t) : SameTags s t :=
  ⟨(tagsFrom_of_plain hs).trans (tagsFrom_of_plain ht).symm, openAfter_of_plain hs,
    openAfter_of_plain ht⟩

theorem append {s s' t t' : String} (h : SameTags s s') (h' : SameTags t t') :
    SameTags (s ++ t) (s' ++ t') := by
  refine ⟨?_, h.left.append h'.left, h.right.append h'.right⟩
  rw [h.left.tags_append, h.right.tags_append, h.tags, h'.tags]

end SameTags

end Text

/-- Two records of one kind. -/
inductive Change.Alike : Change → Change → Prop
  | added (g d n g' d' n' : String) : Alike (.added g d n) (.added g' d' n')
  | removed (g d o g' d' o' : String) : Alike (.removed g d o) (.removed g' d' o')
  | changed (g d o n g' d' o' n' : String) : Alike (.changed g d o n) (.changed g' d' o' n')
  | separator : Alike .separator .separator

namespace Report

open Text

/-- Versions that a page shows in both cases or in none: it shows them if the old one has a name. -/
def ShownAlike : Option (String × String) → Option (String × String) → Prop
  | none, none => True
  | some (old, _), some (old', _) => old = "" ↔ old' = ""
  | _, _ => False

/-- The chip of a change, in front of its text. -/
def chip (style label : String) : String :=
  "<div class=\"change\"><div class=\"chip chip-" ++ style ++ "\">" ++ label ++ "</div> "

theorem sameTags_line (style label : String) (h : Closed (chip style label))
    (detail value detail' value' : String) :
    SameTags (chip style label ++ escapeElement detail ++ escapeElement value ++ "</div>")
      (chip style label ++ escapeElement detail' ++ escapeElement value' ++ "</div>") := by
  have hdetail := SameTags.of_plain (plain_escapeElement detail) (plain_escapeElement detail')
  have hvalue := SameTags.of_plain (plain_escapeElement value) (plain_escapeElement value')
  exact (((SameTags.refl h).append hdetail).append hvalue).append (.refl (by decide))

theorem sameTags_markup {c c' : Change} (h : c.Alike c') : SameTags c.markup c'.markup := by
  cases h with
  | added => exact sameTags_line "added" "ADDED" (by decide) _ _ _ _
  | removed => exact sameTags_line "removed" "REMOVED" (by decide) _ _ _ _
  | changed => exact sameTags_line "changed" "CHANGED" (by decide) _ _ _ _
  | separator => exact .refl (by decide)

theorem plain_display (s : Change.Summary) : Plain s.display := by
  have hadded := (plain_toString s.added).append (t := " added, ") (by decide)
  have hremoved := (hadded.append (plain_toString s.removed)).append (t := " removed, ") (by decide)
  exact (hremoved.append (plain_toString s.changed)).append (by decide)

theorem sameTags_versionsParagraph {vs vs' : Option (String × String)} (h : ShownAlike vs vs') :
    SameTags (Page.versionsParagraph vs) (Page.versionsParagraph vs') := by
  match vs, vs', h with
  | none, none, _ => exact .refl (by decide)
  | some (old, new), some (old', new'), h =>
    have h : old = "" ↔ old' = "" := h
    simp only [Page.versionsParagraph, h]
    split_ifs
    · exact .refl (by decide)
    · have hold := SameTags.of_plain (plain_escapeAttribute old) (plain_escapeAttribute old')
      have hnew := SameTags.of_plain (plain_escapeAttribute new) (plain_escapeAttribute new')
      have hfront := (SameTags.refl (s := "    <p class=\"versions\">") (by decide)).append hold
      exact ((hfront.append (.refl (by decide))).append hnew).append (.refl (by decide))

theorem sameTags_lines {cs cs' : List Change} (h : List.Forall₂ Change.Alike cs cs') :
    SameTags (String.join ((cs.map Change.markup).map fun line => "    " ++ line ++ "\n"))
      (String.join ((cs'.map Change.markup).map fun line => "    " ++ line ++ "\n")) := by
  induction h with
  | nil => exact .refl (by decide)
  | cons hc _ ih =>
    rw [List.map_cons, List.map_cons, List.map_cons, List.map_cons, String.join_cons,
      String.join_cons]
    have hline := (SameTags.refl (s := "    ") (by decide)).append (sameTags_markup hc)
    exact (hline.append (.refl (by decide))).append ih

theorem sameTags_body {cs cs' : List Change} (h : List.Forall₂ Change.Alike cs cs') :
    SameTags (Page.body (cs.map Change.markup)) (Page.body (cs'.map Change.markup)) := by
  cases h with
  | nil => exact .refl (by decide)
  | cons hc hcs => exact sameTags_lines (.cons hc hcs)

/-- Every line of the style is closed. -/
theorem closed_style : Closed Page.style := by
  unfold Page.style
  repeat refine Closed.append ?_ (by decide)
  decide

/-- Pages on changes of the same kinds have the same tags, whatever their titles, the names of the
versions and the texts of the changes are. -/
theorem tags_render_html {cs cs' : List Change} (h : List.Forall₂ Change.Alike cs cs')
    {vs vs' : Option (String × String)} (hversions : ShownAlike vs vs') (title title' : String) :
    tags (render cs .html title vs) = tags (render cs' .html title' vs') := by
  have htitle := SameTags.of_plain (plain_escapeAttribute title) (plain_escapeAttribute title')
  have hsummary := SameTags.of_plain (plain_display (.ofList cs)) (plain_display (.ofList cs'))
  have hpage : SameTags (Page.ofChanges title vs cs).render
      (Page.ofChanges title' vs' cs').render := by
    -- from the end of the page to its front
    refine (SameTags.append ?_ (sameTags_body h)).append (.refl (by decide))
    refine ((SameTags.append ?_ (.refl (by decide))).append hsummary).append (.refl (by decide))
    refine SameTags.append ?_ (sameTags_versionsParagraph hversions)
    refine ((SameTags.append ?_ (.refl (by decide))).append htitle).append (.refl (by decide))
    refine SameTags.append ?_ (.refl closed_style)
    exact ((SameTags.refl (by decide)).append htitle).append (.refl (by decide))
  exact hpage.tags

/-- A title and a type that look like markup, and the same page without them. -/
theorem tags_render_html_script :
    List.Forall₂ Change.Alike
      [.changed "A" "<b>" "A.x: Array<T>" "A.x: </div><script>", .separator]
      [.changed "" "" "" "", .separator] ∧
    ShownAlike (some ("<1>", "2")) (some ("0", "")) ∧
    tags (render [.changed "A" "<b>" "A.x: Array<T>" "A.x: </div><script>", .separator] .html
        "</title><script>" (some ("<1>", "2"))) =
      tags (render [.changed "" "" "" "", .separator] .html "" (some ("0", ""))) := by
  have h : List.Forall₂ Change.Alike
      [.changed "A" "<b>" "A.x: Array<T>" "A.x: </div><script>", .separator]
      [.changed "" "" "" "", .separator] :=
    .cons (.changed _ _ _ _ _ _ _ _) (.cons .separator .nil)
  have hversions : ShownAlike (some ("<1>", "2")) (some ("0", "")) := by
    show "<1>" = "" ↔ "0" = ""
    decide
  exact ⟨h, hversions, tags_render_html h hversions _ _⟩

end Report
end ApiSurface
