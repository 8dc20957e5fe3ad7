import Mathlib
import ApiSurface.Proofs.FileTrees

/-! What an update does to the entries of a tree. Making directories only adds directories where
nothing was, and adds none when the path already leads to one; writing a file is one entry, in the
place that its path leads to then; an entry that is there already changes nothing. -/
namespace ApiSurface

theorem Path.names_ne_nil {p : Path} (hp : p ≠ "") (hrelative : p.isAbsolute = false) :
    names p ≠ [] := by
  have hlist : p.toList ≠ [] := by simpa using hp
  obtain ⟨c, cs, hc⟩ := List.exists_cons_of_ne_nil hlist
  have hslash : c ≠ '/' := by simpa [isAbsolute, hc] using hrelative
  rw [names, hc, split, if_neg hslash]
  split <;> simp

namespace FileTree

/-! Entries that are put. -/

/-- The entries of a tree stand in different places. -/
def Distinct (t : FileTree) : Prop := (t.entries.map (·.1)).Nodup

theorem any_eq_false_of_at?_eq_none {t : FileTree} {place : List String} (h : t.at? place = none) :
    t.entries.any (·.1 = place) = false := by
  have hne : place ≠ [] := ne_nil_of_at? (t := t) (by simp [h])
  rw [at?_of_ne_nil t hne, Option.map_eq_none_iff, List.find?_eq_none] at h
  exact List.any_eq_false.mpr h

theorem put_of_at?_eq_none {t : FileTree} {place : List String} (h : t.at? place = none)
    (e : Option String) : t.put place e = ⟨t.entries ++ [(place, e)]⟩ := by
  simp only [put, any_eq_false_of_at?_eq_none h, Bool.false_eq_true, if_false]

theorem Distinct.put {t : FileTree} (h : t.Distinct) (place : List String) (e : Option String) :
    (t.put place e).Distinct := by
  have hkeys : (t.entries.map fun x => if x.1 = place then (place, e) else x).map (·.1) =
      t.entries.map (·.1) := by
    rw [List.map_map]
    refine List.map_congr_left fun x _ => ?_
    by_cases hx : x.1 = place <;> simp [hx]
  unfold Distinct FileTree.put
  split_ifs with hany
  · rw [hkeys]
    exact h
  · rw [List.map_append]
    refine List.Nodup.append h (List.nodup_singleton place) ?_
    intro q hq hplace
    obtain ⟨x, hx, rfl⟩ := List.mem_map.mp hq
    exact hany (List.any_eq_true.mpr ⟨x, hx, decide_eq_true (List.mem_singleton.mp hplace)⟩)

/-- What stands in a place already may be put there again. -/
theorem Distinct.put_self {t : FileTree} (h : t.Distinct) {place : List String} (hne : place ≠ [])
    {e : Option String} (there : t.at? place = some e) : t.put place e = t := by
  obtain ⟨entry, hfind, rfl⟩ := Option.map_eq_some_iff.mp ((at?_of_ne_nil t hne).symm.trans there)
  have hmem : entry ∈ t.entries := List.mem_of_find?_eq_some hfind
  have hplace : entry.1 = place := by simpa using List.find?_some hfind
  have hany : t.entries.any (·.1 = place) := List.any_eq_true.mpr ⟨entry, hmem, by simp [hplace]⟩
  have hsame : (t.entries.map fun x => if x.1 = place then (place, entry.2) else x) =
      t.entries := by
    refine (List.map_congr_left fun x hx => ?_).trans (List.map_id _)
    split_ifs with hxp
    · have hxe : x = entry := List.inj_on_of_nodup_map h hx hmem (hxp.trans hplace.symm)
      rw [hxe, ← hplace]
      rfl
    · rfl
  rw [FileTree.put, if_pos hany, hsame]

/-! Names in a directory. -/

/-- The name that an entry is listed by in a directory. -/
def listedIn (dir : List String) : List String × Option String → Option String :=
  fun (q, e) => if q.dropLast = dir && e.isSome && q ≠ [] then q.getLast? else none

/-- The names of the files in a directory, in the order of the entries. -/
def namesIn (t : FileTree) (dir : List String) : List String := t.entries.filterMap (listedIn dir)

theorem list_eq_namesIn {t : FileTree} {p : Path} {dir : List String} (h : t.resolve p = .ok dir) :
    t.list p = .ok (t.namesIn dir) := by
  rw [list, h]
  rfl

theorem exists_namesIn_of_list {t : FileTree} {p : Path} {names : List String}
    (h : t.list p = .ok names) : ∃ dir, t.resolve p = .ok dir ∧ names = t.namesIn dir := by
  cases hresolve : t.resolve p with
  | error fault => simp [list, hresolve, bind, Except.bind] at h
  | ok dir => exact ⟨dir, rfl, (Except.ok.inj ((list_eq_namesIn hresolve).symm.trans h)).symm⟩

/-- Of the names that are kept none comes, goes or moves with an entry that is a new directory, or a
file of a name that is not kept. -/
theorem filter_namesIn_put {t : FileTree} {place : List String} {e : Option String}
    {keep : String → Bool} (hnew : e = none → t.at? place = none)
    (hfile : e.isSome → ∀ n ∈ place.getLast?, keep n = false) (dir : List String) :
    ((t.put place e).namesIn dir).filter keep = (t.namesIn dir).filter keep := by
  -- neither the new entry shows a name that is kept, nor one that it is put over
  have hhidden (e' : Option String) (he : e'.isSome → e.isSome) :
      (listedIn dir (place, e')).filter keep = none := by
    rw [Option.filter_eq_none_iff]
    intro n hn
    obtain ⟨rfl, hsome⟩ := listed_eq_some.mp hn
    simp [hfile (he hsome) n (by simp)]
  rw [namesIn, namesIn, List.filter_filterMap, List.filter_filterMap]
  cases hat : t.at? place with
  | none =>
    rw [put_of_at?_eq_none hat, List.filterMap_append]
    simp [hhidden e id]
  | some e₀ =>
    obtain ⟨content, rfl⟩ : ∃ content, e = some content := by
      cases e with
      | none => simp [hat] at hnew
      | some content => exact ⟨content, rfl⟩
    unfold put
    split_ifs
    · rw [List.filterMap_map]
      refine List.filterMap_congr fun x _ => ?_
      rw [Function.comp_apply]
      split_ifs with hx
      · rw [hhidden (some content) id, ← Prod.eta x, hx, hhidden x.2 fun _ => rfl]
      · rfl
    · rw [List.filterMap_append]
      simp [hhidden (some content) id]

/-! Directories that are made. -/

/-- A directory is made as one new entry. -/
theorem makeDirectory_eq_put {t t' : FileTree} {p : Path} (h : t.makeDirectory p = .ok t') :
    ∃ place, t.at? place = none ∧ t' = t.put place none := by
  rw [makeDirectory] at h
  cases hnew : t.newPlace p with
  | error fault => simp [hnew, bind, Except.bind] at h
  | ok found =>
    simp only [hnew, bind, Except.bind, pure, Except.pure] at h
    split_ifs at h with hthere
    exact ⟨found.1, by simpa using hthere, (Except.ok.inj h).symm⟩

section Keeps

variable {P : FileTree → Prop}
  (hput : ∀ t place, t.at? place = none → P t → P (t.put place none))
include hput

theorem makeDirectory_keeps {t t' : FileTree} {p : Path} (h : t.makeDirectory p = .ok t')
    (ht : P t) : P t' := by
  obtain ⟨place, hnone, rfl⟩ := makeDirectory_eq_put h
  exact hput t place hnone ht

theorem makeDirectoriesWithin_keeps (fuel : Nat) {t : FileTree} (p : Path) (ht : P t) :
    P (makeDirectoriesWithin fuel t p).1 := by
  induction fuel generalizing p with
  | zero => exact ht
  | succ fuel ih =>
    rw [makeDirectoriesWithin]
    split_ifs
    · exact ht
    · split
      · next t' hmade => exact makeDirectory_keeps hput hmade ht
      · split
        · exact ht
        · next parent _ =>
          have hparent := ih parent
          split
          · next t' hr =>
            rw [hr] at hparent
            split
            · next t'' hmade => exact makeDirectory_keeps hput hmade hparent
            · exact hparent
          · exact hparent
      · exact ht

/-- What no new directory breaks is kept when directories are made. -/
theorem makeDirectories_keeps {t : FileTree} (p : Path) (ht : P t) : P (t.makeDirectories p).1 :=
  makeDirectoriesWithin_keeps hput _ p ht

end Keeps

theorem Distinct.makeDirectories {t : FileTree} (h : t.Distinct) (p : Path) :
    (t.makeDirectories p).1.Distinct :=
  makeDirectories_keeps (fun _ place _ ht => ht.put place none) p h

/-- New directories are listed nowhere. -/
theorem filter_namesIn_makeDirectories (t : FileTree) (p : Path) (keep : String → Bool)
    (dir : List String) :
    ((t.makeDirectories p).1.namesIn dir).filter keep = (t.namesIn dir).filter keep := by
  refine makeDirectories_keeps (P := fun t' =>
    (t'.namesIn dir).filter keep = (t.namesIn dir).filter keep) (fun t' place hnone ht => ?_) p rfl
  rw [filter_namesIn_put (fun _ => hnone) (by simp), ht]

theorem resolve_of_keeps {t t' : FileTree} (hk : Keeps t t') {p : Path} {place : List String}
    (h : t.resolve p = .ok place) : t'.resolve p = .ok place := by
  rw [FileTree.resolve] at h ⊢
  split_ifs at h ⊢
  exact follow_of_keeps hk h

/-- The path of a directory is the path of no other place. -/
theorem DirectoryAt.newPlace {t : FileTree} {p : Path} {place : List String}
    (h : DirectoryAt t p place) (hp : p ≠ "") : ∃ b, t.newPlace p = .ok (place, b) := by
  have hnames : ((Path.split p.toList).filter (· ≠ [])).map String.ofList = Path.names p := rfl
  obtain hnil | ⟨front, n, hfront⟩ := List.eq_nil_or_concat (Path.names p)
  · exact absurd hnil (Path.names_ne_nil hp h.relative)
  · rw [List.concat_eq_append] at hfront
    have hleads := h.leads
    rw [hfront] at hleads
    rw [FileTree.newPlace, hnames, hfront]
    by_cases hdots : n = "." ∨ n = ".."
    · exact ⟨true, by simp [bind, Except.bind, pure, Except.pure, hp, h.relative, hdots, hleads]⟩
    · rw [follow_append] at hleads
      cases hdir : t.follow [] front with
      | error fault => simp [hdir, bind, Except.bind] at hleads
      | ok dir =>
        simp only [hdir, bind, Except.bind] at hleads
        obtain ⟨next, hstep, hnext⟩ := follow_cons_eq_ok.mp hleads
        obtain rfl : next = place := Except.ok.inj hnext
        rw [not_or] at hdots
        cases hstep with
        | stay _ hdot => exact absurd hdot hdots.1
        | leave _ hdot _ => exact absurd hdot hdots.2
        | enter hd _ _ _ =>
          refine ⟨false, ?_⟩
          simp [bind, Except.bind, pure, Except.pure, hp, h.relative, hdots, hdir, hd]

/-- Where a path leads to a directory, there is none to be made. -/
theorem DirectoryAt.makeDirectories {t : FileTree} {p : Path} {place : List String}
    (h : DirectoryAt t p place) : t.makeDirectories p = (t, .ok ()) := by
  rw [FileTree.makeDirectories, makeDirectoriesWithin]
  split_ifs with hp
  · rfl
  · obtain ⟨b, hnew⟩ := h.newPlace hp
    have hmade : t.makeDirectory p = .error .alreadyExists := by
      simp [makeDirectory, hnew, bind, Except.bind, h.directory]
    have hdirectory : t.isDirectory p = true := by
      simp [isDirectory, h.resolve hp, h.directory]
    simp [hmade, hdirectory]

/-! Files that are written. -/

/-- A file is written as one entry, in the place that its path leads to then. -/
theorem write_eq_ok {t t' : FileTree} {p : Path} {content : String}
    (h : t.write p content = .ok t') :
    ∃ place, t' = t.put place (some content) ∧ t.at? place ≠ some none ∧
      t'.resolve p = .ok place := by
  rw [write] at h
  cases hnew : t.newPlace p with
  | error fault => simp [hnew, bind, Except.bind] at h
  | ok found =>
    obtain ⟨place, b⟩ := found
    simp only [hnew, bind, Except.bind, pure, Except.pure] at h
    split_ifs at h with hdirectory
    obtain rfl := Except.ok.inj h
    rw [Bool.or_eq_true, not_or, decide_eq_true_eq, decide_eq_true_eq] at hdirectory
    obtain ⟨hslash, hfree⟩ := hdirectory
    have hkeeps : Keeps t (t.put place (some content)) := keeps_put hfree _
    have hthere : ((t.put place (some content)).at? place).isSome := by
      simp [at?_put t (ne_nil_of_at? hfree)]
    obtain ⟨hrelative, hway⟩ := newPlace_eq_ok hnew
    have hleads : (t.put place (some content)).follow [] (Path.names p) = .ok place := by
      obtain hleads | ⟨front, n, dir, hnames, hdot, hdots, hfront, hd, rfl⟩ := hway
      · exact follow_of_keeps hkeeps hleads
      · rw [hnames, follow_append, follow_of_keeps hkeeps hfront]
        exact follow_cons_eq_ok.mpr
          ⟨_, .enter (hkeeps.directories dir hd) hdot hdots hthere, rfl⟩
    have hp : p ≠ "" := by
      rintro rfl
      exact ne_nil_of_at? hfree (Except.ok.inj hleads).symm
    refine ⟨place, rfl, hfree, ?_⟩
    rw [FileTree.resolve, if_neg (by simp [hp, hrelative]), namesOf_eq, if_neg hslash,
      List.append_nil]
    exact hleads

/-! Files at the top. -/

/-- The empty path stays at the top. -/
theorem directoryAt_top (t : FileTree) : DirectoryAt t "" [] := ⟨rfl, rfl, rfl⟩

section Name

variable {n : String} (hn : Path.IsName n)
include hn

theorem isFile_name (t : FileTree) : t.isFile n = (t.at? [n]).join.isSome := by
  have hjoin : Path.join "" n = n := rfl
  cases hat : t.at? [n] with
  | some e =>
    have hresolve := resolve_join (directoryAt_top t) hn (by simp [hat])
    rw [hjoin] at hresolve
    simp [isFile, hresolve, hat]
  | none =>
    have hnames : Path.names n = [n] := Path.names_join "" hn
    have hslash : n.toList.getLast? ≠ some '/' := Path.getLast?_ne_slash hn
    have hlost : t.follow [] [n] = .error .notFound := by
      simp [follow, hn.dot, hn.dots, hat]
    have hresolve : t.resolve n = .error .notFound := by
      rw [FileTree.resolve, namesOf_eq, if_neg hslash, hnames, List.append_nil, hlost, ite_self]
    rw [isFile, hresolve]
    rfl

theorem read_name {t : FileTree} {content : String} (h : t.at? [n] = some (some content)) :
    t.read n = .ok content := read_join (directoryAt_top t) hn h

end Name

/-! Trees without anything beside the directories. -/

/-- Every entry of a tree stands in a directory of it. -/
structure Rooted (t : FileTree) : Prop extends t.WellFormed where
  inside : ∀ x ∈ t.entries, t.at? x.1.dropLast = some none

instance (t : FileTree) : Decidable t.Rooted :=
  decidable_of_iff (t.WellFormed ∧ ∀ x ∈ t.entries, t.at? x.1.dropLast = some none)
    ⟨fun ⟨hw, hi⟩ => ⟨hw, hi⟩, fun h => ⟨h.toWellFormed, h.inside⟩⟩

/-- What holds anything is a directory. -/
theorem Rooted.at?_of_inside {t : FileTree} (h : t.Rooted) {dir : List String} {n : String}
    {e : Option String} (hn : t.at? (dir ++ [n]) = some e) : t.at? dir = some none := by
  simpa using h.inside _ ((h.at?_eq_some (by simp)).mp hn)

end FileTree
end ApiSurface
