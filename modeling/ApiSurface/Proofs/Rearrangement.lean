import ApiSurface.Proofs.Entries
import ApiSurface.Proofs.EnumDifference

/-! What a comparison does not see: the order of siblings, siblings that a later one of their name
hides, the order of the values of an enumeration, and what a class or an interface is built on.
Lists of siblings that differ in these only have the same index up to such differences below, and
so every step of a comparison is the same. -/
namespace ApiSurface

/-- Two lists of siblings that differ, at any level, in order and in what nobody looks up. -/
inductive Declaration.Rearranged : List Declaration → List Declaration → Prop
  | refl (ds : List Declaration) : Rearranged ds ds
  | symm {ds es : List Declaration} (h : Rearranged ds es) : Rearranged es ds
  | trans {ds es fs : List Declaration} (h : Rearranged ds es) (h' : Rearranged es fs) :
      Rearranged ds fs
  /-- Siblings in another order, of which the same ones stay the last of their names. -/
  | reordered {ds es : List Declaration} (perm : ds.Perm es)
      (last : ∀ name, lastNamed? name ds = lastNamed? name es) : Rearranged ds es
  /-- A sibling that a later one of its name hides. -/
  | hidden (before after : List Declaration) (d : Declaration)
      (later : ∃ e ∈ after, e.name = d.name) :
      Rearranged (before ++ d :: after) (before ++ after)
  | values (before after : List Declaration) (name : String) {vs ws : List String}
      (perm : vs.Perm ws) :
      Rearranged (before ++ .enumeration name vs :: after)
        (before ++ .enumeration name ws :: after)
  /-- Members of a class; its superclass is free. -/
  | classType (before after : List Declaration) (name : String) (s s' : Option String)
      {ms ms' : List Declaration} (members : Rearranged ms ms') :
      Rearranged (before ++ .classType name ms s :: after)
        (before ++ .classType name ms' s' :: after)
  /-- Members of an interface; its bases are free. -/
  | interface (before after : List Declaration) (name : String) (bs bs' : List String)
      {ms ms' : List Declaration} (members : Rearranged ms ms') :
      Rearranged (before ++ .interface name ms bs :: after)
        (before ++ .interface name ms' bs' :: after)
  /-- A parameter of a method, in its place. -/
  | parameter (before after : List Declaration) (name : String) (result : Option String)
      (ps qs : List Declaration) {p p' : Declaration} (one : Rearranged [p] [p']) :
      Rearranged (before ++ .method name (ps ++ p :: qs) result :: after)
        (before ++ .method name (ps ++ p' :: qs) result :: after)

/-- Two entries that every comparison takes for the same. -/
inductive Linked.Twins : Option Linked → Option Linked → Prop
  | absent : Twins none none
  | present {l m : Linked} (name : l.name = m.name) (parent : l.parent = m.parent)
      (kind : l.kind = m.kind) (display : l.display = m.display)
      (fragment : l.declaration.fragment = m.declaration.fragment)
      (values : l.declaration.values.Perm m.declaration.values)
      (members : ∀ name, Twins (l.member? name) (m.member? name)) : Twins (some l) (some m)

/-! Twins are an equivalence. -/

namespace Linked.Twins

theorem of_no_members {l m : Linked} (name : l.name = m.name) (parent : l.parent = m.parent)
    (kind : l.kind = m.kind) (display : l.display = m.display)
    (fragment : l.declaration.fragment = m.declaration.fragment)
    (values : l.declaration.values.Perm m.declaration.values)
    (hl : l.declaration.members = []) (hm : m.declaration.members = []) :
    Twins (some l) (some m) := by
  refine present name parent kind display fragment values fun n => ?_
  rw [member?_of_members_eq_nil hl, member?_of_members_eq_nil hm]
  exact absent

protected theorem refl (l : Option Linked) : Twins l l := by
  induction h : Linked.depth? l using Nat.strong_induction_on generalizing l with
  | _ d ih =>
    subst h
    cases l with
    | none => exact absent
    | some l =>
      refine present rfl rfl rfl rfl rfl (List.Perm.refl _) fun n => ih _ ?_ _ rfl
      have hle := Index.depth?_get?_ofMembers (some l) n
      have hlt := Declaration.listDepth_members_lt l.declaration
      rw [Index.get?_ofMembers, Option.bind_some] at hle
      simp only [depth?] at hle ⊢
      omega

protected theorem symm {l m : Option Linked} (h : Twins l m) : Twins m l := by
  induction h with
  | absent => exact absent
  | present name parent kind display fragment values _ ih =>
    exact present name.symm parent.symm kind.symm display.symm fragment.symm values.symm ih

protected theorem trans {l m k : Option Linked} (h : Twins l m) (h' : Twins m k) : Twins l k := by
  induction h generalizing k with
  | absent => exact h'
  | present name parent kind display fragment values _ ih =>
    cases h' with
    | present name' parent' kind' display' fragment' values' members' =>
      exact present (name.trans name') (parent.trans parent') (kind.trans kind')
        (display.trans display') (fragment.trans fragment') (values.trans values')
        fun n => ih n (members' n)

theorem isSome_eq {l m : Option Linked} (h : Twins l m) : l.isSome = m.isSome := by
  cases h <;> rfl

theorem member? {l m : Option Linked} (h : Twins l m) (n : String) :
    Twins (l.bind (·.member? n)) (m.bind (·.member? n)) := by
  cases h with
  | absent => exact absent
  | present _ _ _ _ _ _ members => exact members n

theorem map_kind {l m : Option Linked} (h : Twins l m) : l.map (·.kind) = m.map (·.kind) := by
  cases h with
  | absent => rfl
  | present _ _ kind => exact congrArg some kind

end Linked.Twins

/-! Rearranged siblings have the same index, up to what is below its entries. -/

namespace Declaration

open Linked

theorem lastNamed?_singleton (n : String) (d : Declaration) :
    lastNamed? n [d] = if d.name = n then some d else none := lastNamed?_concat n [] d

/-- A sibling that a later one of its name hides is never found. -/
theorem lastNamed?_hidden (n : String) {d : Declaration} {before after : List Declaration}
    (later : ∃ e ∈ after, e.name = d.name) :
    lastNamed? n (before ++ d :: after) = lastNamed? n (before ++ after) := by
  have hsplit : before ++ d :: after = before ++ ([d] ++ after) := rfl
  rw [hsplit, lastNamed?_append, lastNamed?_append, lastNamed?_append, lastNamed?_singleton]
  split_ifs with hd
  · obtain ⟨e, he, hen⟩ := later
    have hsome : (lastNamed? n after).isSome := by
      rw [lastNamed?, List.find?_isSome]
      exact ⟨e, List.mem_reverse.mpr he, by simp [hen, hd]⟩
    obtain ⟨m, hm⟩ := Option.isSome_iff_exists.mp hsome
    simp [hm]
  · simp

/-- Siblings with twins in one place. -/
theorem twins_lastNamed?_middle {parent : Option String} {d e : Declaration}
    (h : Twins (some ⟨d, parent⟩) (some ⟨e, parent⟩)) (before after : List Declaration)
    (n : String) :
    Twins ((lastNamed? n (before ++ d :: after)).map (⟨·, parent⟩))
      ((lastNamed? n (before ++ e :: after)).map (⟨·, parent⟩)) := by
  have hname : d.name = e.name := by
    cases h with
    | present name => exact name
  have hsplit : ∀ x : Declaration, lastNamed? n (before ++ x :: after) =
      (lastNamed? n after).or ((if x.name = n then some x else none).or (lastNamed? n before)) := by
    intro x
    rw [← lastNamed?_singleton, ← lastNamed?_append, ← lastNamed?_append, List.append_assoc]
    rfl
  rw [hsplit d, hsplit e, hname]
  cases lastNamed? n after with
  | some m => exact .refl _
  | none =>
    split_ifs with hn
    · exact h
    · exact .refl _

/-- A parameter list shows no more of a parameter than its name and its type. -/
theorem parameterList_middle {p p' : Declaration} (h : p.fragment = p'.fragment)
    (ps qs : List Declaration) :
    parameterList (ps ++ p :: qs) = parameterList (ps ++ p' :: qs) := by
  simp [parameterList, h]

theorem twins_of_rearranged {ds es : List Declaration} (h : Rearranged ds es)
    (parent : Option String) (n : String) :
    Twins ((lastNamed? n ds).map (⟨·, parent⟩)) ((lastNamed? n es).map (⟨·, parent⟩)) := by
  induction h generalizing parent n with
  | refl ds => exact .refl _
  | symm _ ih => exact (ih parent n).symm
  | trans _ _ ih ih' => exact (ih parent n).trans (ih' parent n)
  | reordered _ last =>
    rw [last n]
    exact .refl _
  | hidden before after d later =>
    rw [lastNamed?_hidden n later]
    exact .refl _
  | values before after name perm =>
    refine twins_lastNamed?_middle ?_ before after n
    exact .of_no_members rfl rfl rfl rfl rfl perm rfl rfl
  | classType before after name s s' members ih =>
    refine twins_lastNamed?_middle ?_ before after n
    exact .present rfl rfl rfl rfl rfl (.refl _) (ih (some name))
  | interface before after name bs bs' members ih =>
    refine twins_lastNamed?_middle ?_ before after n
    exact .present rfl rfl rfl rfl rfl (.refl _) (ih (some name))
  | @parameter before after name result ps qs p p' one ih =>
    have hone := ih none p.name
    rw [lastNamed?_singleton, if_pos rfl, lastNamed?_singleton] at hone
    have hfragment : p.fragment = p'.fragment := by
      split_ifs at hone with hname
      · cases hone with
        | present _ _ _ _ fragment => exact fragment
      · cases hone
    have hdisplay : Linked.display ⟨.method name (ps ++ p :: qs) result, parent⟩ =
        Linked.display ⟨.method name (ps ++ p' :: qs) result, parent⟩ := by
      cases result <;> simp only [Linked.display, Linked.qualifier, parameterList_middle hfragment]
    refine twins_lastNamed?_middle ?_ before after n
    exact .of_no_members rfl rfl rfl hdisplay rfl (.refl _) rfl rfl

theorem sorted_eq_of_perm {vs ws : List String} (h : vs.Perm ws) : sorted vs = sorted ws :=
  List.Perm.eq_of_pairwise' (pairwise_sorted vs) (pairwise_sorted ws)
    (((List.mergeSort_perm vs _).trans h).trans (List.mergeSort_perm ws _).symm)

end Declaration

/-! Indexes with the same names. -/

namespace Index

theorem names_eq {i j : Index} (hi : i.names.Pairwise (· < ·)) (hj : j.names.Pairwise (· < ·))
    (h : ∀ n, (i.get? n).isSome = (j.get? n).isSome) : i.names = j.names := by
  have hmem : ∀ n, n ∈ i.names ↔ n ∈ j.names := by
    intro n
    rw [mem_names, mem_names, contains, contains, h n]
  have hperm : i.names.Perm j.names :=
    (List.perm_ext_iff_of_nodup (hi.imp ne_of_lt) (hj.imp ne_of_lt)).mpr hmem
  exact hperm.eq_of_pairwise' hi hj

theorem pairwise_names_ofMembers (d : Option Declaration) :
    (ofMembers d).names.Pairwise (· < ·) := by
  cases d with
  | none => exact List.Pairwise.nil
  | some d => exact pairwise_names_ofList (some d.name) d.members

end Index

/-! Comparisons of twins. -/

namespace Comparison

open Linked

/-- A comparison of indexes asks for their names, and for what stands under each. -/
theorem compareIndexes_congr (dedupe : Bool) {i i' j j' : Index} (hi : i.names = i'.names)
    (hj : j.names = j'.names)
    (h : ∀ n, compareEntries dedupe (i.get? n) (j.get? n) =
      compareEntries dedupe (i'.get? n) (j'.get? n)) :
    compareIndexes dedupe i j = compareIndexes dedupe i' j' := by
  have hcontains : ∀ n, i.contains n = i'.contains n := by
    intro n
    rw [Bool.eq_iff_iff, ← Index.mem_names, ← Index.mem_names, hi]
  have hnames : names dedupe i j = names dedupe i' j' := by
    simp only [names, hi, hj, hcontains]
  rw [compareIndexes, compareIndexes, hnames]
  exact List.flatMap_congr fun n _ => h n

theorem compareEnumValues_congr {oldName newName : String} {old old' new new' : List String}
    (ho : old.Perm old') (hn : new.Perm new') :
    compareEnumValues oldName old newName new = compareEnumValues oldName old' newName new' := by
  rw [compareEnumValues, compareEnumValues, enumRuns, enumRuns,
    Declaration.sorted_eq_of_perm ho, Declaration.sorted_eq_of_perm hn]

theorem group_eq {l m : Linked} (name : l.name = m.name) (parent : l.parent = m.parent) :
    l.group = m.group := by rw [group, group, name, parent]

section Twins

variable {old old' new new' : Option Linked} (ho : Twins old old') (hn : Twins new new')
include ho hn

theorem kindChange_twins : kindChange old new = kindChange old' new' := by
  cases ho with
  | absent => rfl
  | present name _ kind =>
    cases hn with
    | absent => rfl
    | present name' _ kind' => simp only [kindChange, name, kind, name', kind']

theorem compareEnumerations_twins :
    compareEnumerations old new = compareEnumerations old' new' := by
  cases ho with
  | absent =>
    cases hn with
    | absent => rfl
    | present name _ _ _ _ values =>
      simp only [compareEnumerations, name]
      exact compareEnumValues_congr (.refl _) values
  | present name _ _ _ _ values =>
    cases hn with
    | absent =>
      simp only [compareEnumerations, name]
      exact compareEnumValues_congr values (.refl _)
    | present name' _ _ _ _ values' =>
      simp only [compareEnumerations, name, name']
      exact compareEnumValues_congr values values'

theorem compareLeaves_twins : compareLeaves old new = compareLeaves old' new' := by
  cases ho with
  | absent =>
    cases hn with
    | absent => rfl
    | present name parent _ display => simp only [compareLeaves, group_eq name parent, display]
  | present name parent _ display =>
    cases hn with
    | absent => simp only [compareLeaves, group_eq name parent, display]
    | present name' parent' _ display' =>
      simp only [compareLeaves, group_eq name' parent', display, display']

theorem ownChanges_twins : ownChanges old new = ownChanges old' new' := by
  rw [ownChanges, ownChanges, kindChange_twins ho hn, compareEnumerations_twins ho hn,
    compareLeaves_twins ho hn, ho.map_kind, hn.map_kind]

theorem descends_twins : Descends old new ↔ Descends old' new' := by
  rw [Descends, Descends, ho.map_kind, hn.map_kind]

end Twins

/-- The members of twins have the same names. -/
theorem names_ofMembers_twins {l m : Option Linked} (h : Twins l m) :
    (Index.ofMembers (l.map (·.declaration))).names =
      (Index.ofMembers (m.map (·.declaration))).names := by
  refine Index.names_eq (Index.pairwise_names_ofMembers _) (Index.pairwise_names_ofMembers _) ?_
  intro n
  rw [Index.get?_ofMembers, Index.get?_ofMembers]
  exact (h.member? n).isSome_eq

/-- One step reports the same for twins, and it goes on with twins. -/
theorem compareEntries_twins (dedupe : Bool) {old old' new new' : Option Linked}
    (ho : Twins old old') (hn : Twins new new') :
    compareEntries dedupe old new = compareEntries dedupe old' new' := by
  induction old, new using entries_induction generalizing old' new' with
  | step old new ih =>
    have hmembers : memberChanges dedupe old new = memberChanges dedupe old' new' := by
      rw [memberChanges, memberChanges]
      by_cases hd : Descends old new
      · rw [if_pos hd, if_pos ((descends_twins ho hn).mp hd)]
        refine compareIndexes_congr dedupe (names_ofMembers_twins ho)
          (names_ofMembers_twins hn) fun n => ?_
        simp only [Index.get?_ofMembers]
        exact ih hd n (ho.member? n) (hn.member? n)
      · rw [if_neg hd, if_neg fun hd' => hd ((descends_twins ho hn).mpr hd')]
    rw [compareEntries_eq, compareEntries_eq, ownChanges_twins ho hn, hmembers]

theorem names_ofStructure_rearranged {s t : Structure} (h : Declaration.Rearranged s t) :
    (Index.ofStructure s).names = (Index.ofStructure t).names := by
  refine Index.names_eq (Index.pairwise_names_ofList none s) (Index.pairwise_names_ofList none t) ?_
  intro n
  rw [Index.get?_ofStructure, Index.get?_ofStructure]
  exact (Declaration.twins_of_rearranged h none n).isSome_eq

/-- Rearranged structures are compared alike: the records are the same, and in the same order. -/
theorem compare_eq_of_rearranged (dedupe : Bool) {old old' new new' : Structure}
    (ho : Declaration.Rearranged old old') (hn : Declaration.Rearranged new new') :
    compare dedupe old new = compare dedupe old' new' := by
  refine compareIndexes_congr dedupe (names_ofStructure_rearranged ho)
    (names_ofStructure_rearranged hn) fun n => ?_
  rw [Index.get?_ofStructure, Index.get?_ofStructure, Index.get?_ofStructure,
    Index.get?_ofStructure]
  exact compareEntries_twins dedupe (Declaration.twins_of_rearranged ho none n)
    (Declaration.twins_of_rearranged hn none n)

/-- A class that hides an alias of its name, with a hidden member, other members in another order
and another superclass, beside an enumeration with its values in another order. -/
theorem compare_eq_of_rearranged_shape :
    Declaration.Rearranged
      [.typeAlias "Shape" "Circle",
        .classType "Shape" [.property "size" "string", .method "draw" [] (some "void"),
          .property "size" "number"] none,
        .enumeration "Color" ["Red", "Blue"]]
      [.enumeration "Color" ["Blue", "Red"],
        .classType "Shape" [.property "size" "number", .method "draw" [] (some "void")]
          (some "Figure")] ∧
    Declaration.Rearranged [.enumeration "Color" ["Red"]] [.enumeration "Color" ["Red"]] ∧
    compare false
      [.typeAlias "Shape" "Circle",
        .classType "Shape" [.property "size" "string", .method "draw" [] (some "void"),
          .property "size" "number"] none,
        .enumeration "Color" ["Red", "Blue"]] [.enumeration "Color" ["Red"]] =
      compare false
        [.enumeration "Color" ["Blue", "Red"],
          .classType "Shape" [.property "size" "number", .method "draw" [] (some "void")]
            (some "Figure")] [.enumeration "Color" ["Red"]] := by
  have swap : ∀ d e : Declaration, d.name ≠ e.name → Declaration.Rearranged [d, e] [e, d] := by
    intro d e hne
    refine .reordered (List.Perm.swap _ _ _) fun n => ?_
    by_cases hd : d.name = n
    · have he : e.name ≠ n := fun he => hne (hd.trans he.symm)
      simp [Declaration.lastNamed?, hd, he]
    · by_cases he : e.name = n <;> simp [Declaration.lastNamed?, hd, he]
  have hmembers : Declaration.Rearranged
      [.property "size" "string", .method "draw" [] (some "void"), .property "size" "number"]
      [.property "size" "number", .method "draw" [] (some "void")] :=
    (Declaration.Rearranged.hidden [] _ (.property "size" "string")
      ⟨.property "size" "number", by simp, rfl⟩).trans (swap _ _ (by decide))
  have hold := (Declaration.Rearranged.hidden []
      [.classType "Shape" [.property "size" "string", .method "draw" [] (some "void"),
        .property "size" "number"] none, .enumeration "Color" ["Red", "Blue"]]
      (.typeAlias "Shape" "Circle") ⟨_, List.mem_cons_self, rfl⟩).trans <|
    (Declaration.Rearranged.classType [] [.enumeration "Color" ["Red", "Blue"]] "Shape" none
      (some "Figure") hmembers).trans <|
    (swap _ _ (by decide)).trans <|
    Declaration.Rearranged.values [] _ "Color" (List.Perm.swap "Blue" "Red" [])
  exact ⟨hold, .refl _, compare_eq_of_rearranged false hold (.refl _)⟩

end Comparison
end ApiSurface
