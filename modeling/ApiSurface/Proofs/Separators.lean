import ApiSurface.Proofs.PageTags
import ApiSurface.Proofs.PathDifference

/-! The places of separators in a comparison. A separator stands behind the records that it closes:
a comparison never opens with one, so it holds other records as soon as it holds any, and where no
container stands inside another no separator follows a separator. -/
namespace ApiSurface

/-! Counting the records. -/

namespace Change.Summary

theorem total_count (s : Summary) (c : Change) :
    (s.count c).total = s.total + if c.isSeparator then 0 else 1 := by
  cases c <;> simp [count, total, isSeparator] <;> omega

theorem total_foldl_count (cs : List Change) (s : Summary) :
    (cs.foldl count s).total = s.total + (Comparison.proper cs).length := by
  induction cs generalizing s with
  | nil => rfl
  | cons c cs ih =>
    rw [List.foldl_cons, ih, total_count]
    cases hc : c.isSeparator <;> simp [Comparison.proper, hc]
    omega

/-- A summary counts the records that are no separators. -/
theorem total_ofList (cs : List Change) :
    (ofList cs).total = (Comparison.proper cs).length := by
  simpa [ofList, total] using total_foldl_count cs {}

end Change.Summary

/-- No class or interface is a member of a class or an interface. -/
def Structure.IsFlat (s : Structure) : Prop := ∀ d ∈ s, ∀ m ∈ d.members, ¬ m.kind.isContainer

namespace Comparison

/-! Separators behind other records. -/

/-- A list of records that does not open with a separator. -/
def Led (cs : List Change) : Prop := ∀ c ∈ cs.head?, c.isSeparator = false

/-- One of two records is no separator. -/
def Apart (c d : Change) : Prop := c.isSeparator = false ∨ d.isSeparator = false

theorem isSeparator_of_mem_proper {cs : List Change} (h : proper cs = cs) {c : Change}
    (hc : c ∈ cs) : c.isSeparator = false := by
  rw [← h] at hc
  simpa using (List.mem_filter.mp hc).2

theorem led_of_proper {cs : List Change} (h : proper cs = cs) : Led cs :=
  fun _ hc => isSeparator_of_mem_proper h (List.mem_of_mem_head? hc)

namespace Led

variable {cs ds : List Change}

theorem append (hc : Led cs) (hd : Led ds) : Led (cs ++ ds) := by
  cases cs with
  | nil => exact hd
  | cons c cs => exact hc

theorem flatMap {α : Type} {f : α → List Change} {as : List α} (h : ∀ a ∈ as, Led (f a)) :
    Led (as.flatMap f) := by
  induction as with
  | nil => exact nofun
  | cons a as ih =>
    obtain ⟨ha, has⟩ := List.forall_mem_cons.mp h
    exact ha.append (ih has)

/-- A separator is put behind records only. -/
theorem close (h : Led cs) : Led (close cs) := by
  cases cs with
  | nil => exact nofun
  | cons c cs => exact h

theorem head?_ne (h : Led cs) : cs.head? ≠ some .separator := fun hs => nomatch h _ hs

/-- Records that do not open with a separator are not all separators. -/
theorem ne_nil_iff (h : Led cs) : cs ≠ [] ↔ 0 < (Change.Summary.ofList cs).total := by
  rw [Change.Summary.total_ofList, List.length_pos_iff]
  cases cs with
  | nil => simp [proper]
  | cons c cs =>
    have hc : c.isSeparator = false := h c rfl
    simp [proper, hc]

end Led

theorem led_compareEntries (dedupe : Bool) (old new : Option Linked) :
    Led (compareEntries dedupe old new) := by
  induction old, new using entries_induction with
  | step old new ih =>
    rw [compareEntries_eq]
    refine (led_of_proper (proper_ownChanges old new)).append (Led.close ?_)
    unfold memberChanges
    split_ifs with hd
    · refine Led.flatMap fun n _ => ?_
      rw [Index.get?_ofMembers, Index.get?_ofMembers]
      exact ih hd n
    · exact nofun

theorem led_compare (dedupe : Bool) (old new : Structure) : Led (compare dedupe old new) :=
  .flatMap fun _ _ => led_compareEntries dedupe _ _

/-! Separators one behind the other. -/

theorem isChain_apart_of_proper {cs : List Change} (h : proper cs = cs) : cs.IsChain Apart := by
  have hpairs : cs.Pairwise Apart := List.pairwise_of_forall_mem_list fun c hc _ _ =>
    .inl (isSeparator_of_mem_proper h hc)
  exact hpairs.isChain

/-- Behind records of which none is a separator there is room for one. -/
theorem isChain_apart_close {cs : List Change} (h : proper cs = cs) :
    (close cs).IsChain Apart := by
  unfold close
  split_ifs
  · exact .nil
  · refine (isChain_apart_of_proper h).append (.singleton _) fun c hc _ _ => ?_
    exact .inl (isSeparator_of_mem_proper h (List.mem_of_getLast? hc))

theorem isChain_apart_flatMap {α : Type} {f : α → List Change} {as : List α}
    (h : ∀ a ∈ as, Led (f a) ∧ (f a).IsChain Apart) : (as.flatMap f).IsChain Apart := by
  induction as with
  | nil => exact .nil
  | cons a as ih =>
    obtain ⟨⟨-, ha⟩, has⟩ := List.forall_mem_cons.mp h
    have hled : Led (as.flatMap f) := .flatMap fun b hb => (has b hb).1
    exact ha.append (ih has) fun _ _ d hd => .inr (hled d hd)

theorem not_descends {old new : Option Linked} (ho : ∀ l ∈ old, ¬ l.kind.isContainer)
    (hn : ∀ l ∈ new, ¬ l.kind.isContainer) : ¬ Descends old new := by
  have hnone : ∀ l ∈ new.or old, ¬ l.kind.isContainer := by
    cases new with
    | none => exact ho
    | some n => exact hn
  unfold Descends route?
  rw [← Option.map_or]
  cases hl : new.or old with
  | none => split_ifs <;> simp
  | some l =>
    have hl : ¬ l.kind.isContainer := hnone l hl
    simp only [Option.map_some, if_neg hl]
    split_ifs <;> simp

theorem proper_compareEntries {old new : Option Linked} (h : ¬ Descends old new) (dedupe : Bool) :
    proper (compareEntries dedupe old new) = compareEntries dedupe old new := by
  rw [compareEntries_eq, memberChanges, if_neg h, close_nil, List.append_nil, proper_ownChanges]

/-- A top-level declaration of a flat structure has no containers as members. -/
theorem not_isContainer_of_member? {s : Structure} (h : s.IsFlat) {n m : String} {l : Linked}
    (hl : l ∈ (s.named? n).bind (·.member? m)) : ¬ l.kind.isContainer := by
  obtain ⟨c, hc, hl⟩ := Option.bind_eq_some_iff.mp hl
  obtain ⟨d, hd, rfl⟩ := Option.map_eq_some_iff.mp hc
  obtain ⟨e, he, rfl⟩ := Option.map_eq_some_iff.mp hl
  exact h d (Declaration.mem_of_lastNamed? hd) e (Declaration.mem_of_lastNamed? he)

theorem isChain_apart_compareEntries {old new : Structure} (ho : old.IsFlat) (hn : new.IsFlat)
    (dedupe : Bool) (n : String) :
    (compareEntries dedupe (old.named? n) (new.named? n)).IsChain Apart := by
  have hmembers : proper (memberChanges dedupe (old.named? n) (new.named? n)) =
      memberChanges dedupe (old.named? n) (new.named? n) := by
    unfold memberChanges
    split_ifs
    · rw [compareIndexes, proper, List.filter_flatMap]
      refine List.flatMap_congr fun m _ => ?_
      rw [Index.get?_ofMembers, Index.get?_ofMembers]
      exact proper_compareEntries (not_descends (fun _ => not_isContainer_of_member? ho)
        fun _ => not_isContainer_of_member? hn) dedupe
    · rfl
  rw [compareEntries_eq]
  have hled := Led.close (led_of_proper hmembers)
  exact (isChain_apart_of_proper (proper_ownChanges _ _)).append (isChain_apart_close hmembers)
    fun _ _ d hd => .inr (hled d hd)

end Comparison

/-! Pages without lines. -/

namespace Report

open Text

/-- What a page says if there are no changes. -/
def emptyRemark : String := "<p>No changes.</p>"

/-- What opens a paragraph without a class. -/
def paragraphTag : List Char := ['<', 'p', '>']

/-- A text in which no tag is left open and none opens a paragraph without a class. -/
structure Unremarked (s : String) : Prop where
  closed : Closed s
  tags : ∀ tag ∈ tags s, ¬ paragraphTag <:+ tag

namespace Unremarked

theorem append {s t : String} (hs : Unremarked s) (ht : Unremarked t) : Unremarked (s ++ t) := by
  refine ⟨hs.closed.append ht.closed, ?_⟩
  rw [hs.closed.tags_append]
  exact List.forall_mem_append.mpr ⟨hs.tags, ht.tags⟩

theorem of_plain {s : String} (h : Plain s) : Unremarked s := by
  refine ⟨openAfter_of_plain h, ?_⟩
  rw [Text.tags, tagsFrom_of_plain h]
  exact List.forall_mem_nil _

theorem join {ss : List String} (h : ∀ s ∈ ss, Unremarked s) : Unremarked (String.join ss) := by
  induction ss with
  | nil => exact ⟨rfl, nofun⟩
  | cons s ss ih =>
    obtain ⟨hs, hss⟩ := List.forall_mem_cons.mp h
    rw [String.join_cons]
    exact hs.append (ih hss)

end Unremarked

instance (s : String) : Decidable (Unremarked s) :=
  decidable_of_iff (Closed s ∧ ∀ tag ∈ tags s, ¬ paragraphTag <:+ tag)
    ⟨fun h => ⟨h.1, h.2⟩, fun h => ⟨h.closed, h.tags⟩⟩

/-- Wherever a text holds the tag of a paragraph, one of its tags ends there. -/
theorem exists_tag_of_infix {s : String} (h : paragraphTag <:+: s.toList) :
    ∃ tag ∈ tags s, paragraphTag <:+ tag := by
  obtain ⟨before, behind, h⟩ := h
  rw [tags, ← h, List.append_assoc, tagsFrom_append]
  cases openAfter none before with
  | none => exact ⟨paragraphTag, by simp [paragraphTag, tagsFrom], List.suffix_refl _⟩
  | some tag =>
    exact ⟨tag ++ paragraphTag, by simp [paragraphTag, tagsFrom], List.suffix_append _ _⟩

theorem Unremarked.not_remark {s : String} (h : Unremarked s) :
    ¬ emptyRemark.toList <:+: s.toList := by
  intro hinfix
  have htag : paragraphTag <:+: emptyRemark.toList := ⟨[], "No changes.</p>".toList, by decide⟩
  obtain ⟨tag, hmem, htag⟩ := exists_tag_of_infix (htag.trans hinfix)
  exact h.tags tag hmem htag

theorem unremarked_markup (c : Change) : Unremarked c.markup := by
  have hline (style label : String) (h : Unremarked (chip style label)) (detail value : String) :
      Unremarked (chip style label ++ escapeElement detail ++ escapeElement value ++ "</div>") :=
    ((h.append (.of_plain (plain_escapeElement detail))).append
      (.of_plain (plain_escapeElement value))).append (by decide)
  cases c with
  | added => exact hline "added" "ADDED" (by decide) _ _
  | removed => exact hline "removed" "REMOVED" (by decide) _ _
  | changed => exact hline "changed" "CHANGED" (by decide) _ _
  | separator => decide

theorem unremarked_versionsParagraph (versions : Option (String × String)) :
    Unremarked (Page.versionsParagraph versions) := by
  match versions with
  | none => decide
  | some (old, new) =>
    simp only [Page.versionsParagraph]
    split_ifs
    · decide
    · have hold : Unremarked (escapeAttribute old) := .of_plain (plain_escapeAttribute old)
      have hnew : Unremarked (escapeAttribute new) := .of_plain (plain_escapeAttribute new)
      have hfront : Unremarked "    <p class=\"versions\">" := by decide
      exact (((hfront.append hold).append (by decide)).append hnew).append (by decide)

theorem unremarked_body {cs : List Change} (h : cs ≠ []) :
    Unremarked (Page.body (cs.map Change.markup)) := by
  obtain ⟨c, cs, rfl⟩ := List.exists_cons_of_ne_nil h
  refine Unremarked.join (List.forall_mem_map.mpr (List.forall_mem_map.mpr fun d _ => ?_))
  have hindent : Unremarked "    " := by decide
  exact (hindent.append (unremarked_markup d)).append (by decide)

theorem unremarked_style : Unremarked Page.style := by
  unfold Page.style
  repeat refine Unremarked.append ?_ (by decide)
  decide

/-- A page says that there are no changes exactly if it has no line. -/
theorem emptyRemark_infix_iff (cs : List Change) (title : String)
    (versions : Option (String × String)) :
    emptyRemark.toList <:+: (render cs .html title versions).toList ↔ cs = [] := by
  constructor
  · intro hremark
    by_contra hne
    have htitle : Unremarked (escapeAttribute title) := .of_plain (plain_escapeAttribute title)
    have hsummary : Unremarked (Change.Summary.ofList cs).display := .of_plain (plain_display _)
    have hpage : Unremarked (Page.ofChanges title versions cs).render := by
      -- from the end of the page to its front
      refine (Unremarked.append ?_ (unremarked_body hne)).append (by decide)
      refine ((Unremarked.append ?_ (by decide)).append hsummary).append (by decide)
      refine Unremarked.append ?_ (unremarked_versionsParagraph versions)
      refine ((Unremarked.append ?_ (by decide)).append htitle).append (by decide)
      refine Unremarked.append ?_ unremarked_style
      exact (Unremarked.append (by decide) htitle).append (by decide)
    exact hpage.not_remark hremark
  · rintro rfl
    have hbody : emptyRemark.toList <:+: (Page.body []).toList := ⟨"    ".toList, ['\n'], by decide⟩
    have hpage : (Page.body []).toList <:+: (render [] .html title versions).toList := by
      show _ <:+: (Page.ofChanges title versions []).render.toList
      unfold Page.render
      simp only [String.toList_append]
      exact List.infix_append _ _ _
    exact hbody.trans hpage

end Report

namespace Comparison

/-- In a comparison separators close the records before them. It does not open with one, it is not
empty exactly if its summary counts something, and the page on it says that there are no changes
exactly if the summary counts nothing; where containers stand in no containers, two separators are
never neighbours. -/
theorem separators_close_records (dedupe : Bool) (old new : Structure) (title : String)
    (versions : Option (String × String)) :
    (compare dedupe old new).head? ≠ some .separator ∧
      (compare dedupe old new ≠ [] ↔
        0 < (Change.Summary.ofList (compare dedupe old new)).total) ∧
      (Report.emptyRemark.toList <:+:
          (Report.render (compare dedupe old new) .html title versions).toList ↔
        (Change.Summary.ofList (compare dedupe old new)).total = 0) ∧
      (old.IsFlat → new.IsFlat → (compare dedupe old new).IsChain
        fun c d => ¬ (c = .separator ∧ d = .separator)) := by
  have hled := led_compare dedupe old new
  refine ⟨hled.head?_ne, hled.ne_nil_iff, ?_, fun ho hn => ?_⟩
  · rw [Report.emptyRemark_infix_iff, ← Nat.le_zero, ← Nat.not_lt, ← hled.ne_nil_iff, not_not]
  · have hchain : (compare dedupe old new).IsChain Apart := by
      refine isChain_apart_flatMap fun n _ => ⟨led_compareEntries dedupe _ _, ?_⟩
      rw [Index.get?_ofStructure, Index.get?_ofStructure]
      exact isChain_apart_compareEntries ho hn dedupe n
    refine hchain.imp fun c d hcd => ?_
    rintro ⟨rfl, rfl⟩
    exact hcd.elim nofun nofun

/-- Two containers that are gone, each of them with its member. -/
theorem separators_close_records_gone :
    let shapes := [.classType "A" [.property "x" "number"] none,
      .interface "B" [.method "f" [] (some "void")] []]
    (Structure.IsFlat shapes ∧ Structure.IsFlat []) ∧
      compare true shapes [] = [.removed "A" "" "A.x: number", .separator,
        .removed "B" "" "B.f(): void", .separator] ∧
      (compare true shapes []).IsChain fun c d => ¬ (c = .separator ∧ d = .separator) := by
  intro shapes
  have hshapes : Structure.IsFlat shapes := by
    simp [Structure.IsFlat, shapes, Declaration.members, Declaration.kind, Kind.isContainer]
  have hnone : Structure.IsFlat [] := List.forall_mem_nil _
  have hcompare : compare true shapes [] = [.removed "A" "" "A.x: number", .separator,
      .removed "B" "" "B.f(): void", .separator] := by cbv
  exact ⟨⟨hshapes, hnone⟩, hcompare,
    (separators_close_records true shapes [] "" none).2.2.2 hshapes hnone⟩

end Comparison
end ApiSurface
