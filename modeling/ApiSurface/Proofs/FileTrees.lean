import Mathlib
import ApiSurface.FileTree

/-! Laws of file trees. A tree that only gains entries, or gets new contents where no directory is,
leads every path that led to a directory to the same one. A name behind the path of a directory
stands for the entry of that name in it. -/
namespace ApiSurface
namespace Path

/-! Names and the paths they end. -/

/-- The name of a file or directory. -/
structure IsName (n : String) : Prop where
  nonempty : n ≠ ""
  dot : n ≠ "."
  dots : n ≠ ".."
  slash : '/' ∉ n.toList

instance (n : String) : Decidable (IsName n) :=
  decidable_of_iff (n ≠ "" ∧ n ≠ "." ∧ n ≠ ".." ∧ '/' ∉ n.toList)
    ⟨fun ⟨h1, h2, h3, h4⟩ => ⟨h1, h2, h3, h4⟩, fun h => ⟨h.nonempty, h.dot, h.dots, h.slash⟩⟩

/-- A name that is longer than two dots only has to be without slashes. -/
theorem isName_of_length {n : String} (hlong : 2 < n.toList.length) (hslash : '/' ∉ n.toList) :
    IsName n where
  nonempty h := by simp [h] at hlong
  dot h := by simp [h] at hlong
  dots h := by simp [h] at hlong
  slash := hslash

/-- The names in a path, single and double dots among them. -/
def names (p : Path) : List String :=
  ((split p.toList).filter (· ≠ [])).map String.ofList

theorem split_ne_nil (xs : List Char) : split xs ≠ [] := by
  cases xs with
  | nil => simp [split]
  | cons x xs =>
    rw [split]
    split_ifs
    · simp
    · split <;> simp

theorem split_append (xs ys : List Char) : split (xs ++ '/' :: ys) = split xs ++ split ys := by
  induction xs with
  | nil => simp [split]
  | cons x xs ih =>
    by_cases hx : x = '/'
    · simp [split, hx, ih]
    · cases hs : split xs with
      | nil => exact absurd hs (split_ne_nil xs)
      | cons part rest => simp [split, hx, ih, hs]

theorem split_of_not_mem {xs : List Char} (h : '/' ∉ xs) : split xs = [xs] := by
  induction xs with
  | nil => rfl
  | cons x xs ih =>
    have hx : x ≠ '/' := fun hx => h (hx ▸ List.mem_cons_self)
    rw [split, if_neg hx, ih fun hm => h (List.mem_cons_of_mem x hm)]

/-- The parts of a path with a name behind it. -/
theorem split_join (p : Path) {n : String} (h : '/' ∉ n.toList) :
    ∃ front, split (join p n).toList = front ++ [n.toList] ∧
      (split p.toList).filter (· ≠ []) = front.filter (· ≠ []) := by
  rcases List.eq_nil_or_concat p.toList with hp | ⟨xs, c, hp⟩
  · refine ⟨[], ?_, ?_⟩
    · simp [join, hp, split_of_not_mem h]
    · simp [hp, split]
  · rw [List.concat_eq_append] at hp
    by_cases hc : c = '/'
    · subst hc
      have hj : (join p n).toList = xs ++ '/' :: n.toList := by
        simp [join, hp, String.toList_append]
      refine ⟨split xs, ?_, ?_⟩
      · rw [hj, split_append, split_of_not_mem h]
      · rw [hp, split_append, List.filter_append]
        simp [split]
    · have hj : (join p n).toList = p.toList ++ '/' :: n.toList := by
        unfold join
        rw [hp, List.getLast?_concat]
        split
        · simp_all
        · simp_all
        · simp [String.toList_append, hp]
      refine ⟨split p.toList, ?_, rfl⟩
      rw [hj, split_append, split_of_not_mem h]

theorem names_join (p : Path) {n : String} (h : IsName n) : names (join p n) = names p ++ [n] := by
  obtain ⟨front, hj, hp⟩ := split_join p h.slash
  have hn : n.toList ≠ [] := by simpa using h.nonempty
  rw [names, names, hj, hp, List.filter_append, List.map_append]
  simp [hn]

theorem getLast?_join (p : Path) {n : String} (h : IsName n) :
    (join p n).toList.getLast? = n.toList.getLast? := by
  have hn : n.toList ≠ [] := by simpa using h.nonempty
  unfold join
  split
  · rfl
  · rw [String.toList_append, List.getLast?_append_of_ne_nil _ hn]
  · rw [String.toList_append, List.getLast?_append_of_ne_nil _ hn]

theorem getLast?_ne_slash {n : String} (h : IsName n) : n.toList.getLast? ≠ some '/' :=
  fun hl => h.slash (List.mem_of_getLast? hl)

theorem isAbsolute_join (p : Path) {n : String} (h : IsName n) :
    (join p n).isAbsolute = p.isAbsolute := by
  unfold join isAbsolute
  split
  · next hp =>
    have hp : p.toList = [] := List.getLast?_eq_none_iff.mp hp
    rw [hp, decide_eq_decide]
    exact ⟨fun hn => absurd (List.mem_of_head? hn) h.slash, fun hn => nomatch hn⟩
  · next hp =>
    obtain ⟨c, cs, hc⟩ := List.exists_cons_of_ne_nil (List.ne_nil_of_mem (List.mem_of_getLast? hp))
    rw [String.toList_append, hc]
    rfl
  · next c hp =>
    obtain ⟨c, cs, hc⟩ := List.exists_cons_of_ne_nil (List.ne_nil_of_mem (List.mem_of_getLast? hp))
    rw [String.toList_append, String.toList_append, hc]
    rfl

theorem join_ne_empty (p : Path) {n : String} (h : IsName n) : join p n ≠ "" := by
  intro hj
  have hl := getLast?_join p h
  rw [hj] at hl
  exact h.nonempty (String.toList_eq_nil_iff.mp (List.getLast?_eq_none_iff.mp hl.symm))

end Path

namespace FileTree

/-! What stands where. -/

@[simp] theorem at?_nil (t : FileTree) : t.at? [] = some none := rfl

theorem at?_of_ne_nil (t : FileTree) {place : List String} (h : place ≠ []) :
    t.at? place = (t.entries.find? (·.1 = place)).map (·.2) := by
  cases place with
  | nil => exact absurd rfl h
  | cons n ns => rfl

theorem find?_replace (place q : List String) (e : Option String)
    (es : List (List String × Option String)) :
    ((es.map fun x => if x.1 = place then (place, e) else x).find? (·.1 = q)).map (·.2) =
      if q = place ∧ es.any (·.1 = place) then some e else (es.find? (·.1 = q)).map (·.2) := by
  induction es with
  | nil => simp
  | cons x es ih =>
    rw [List.map_cons, List.any_cons]
    by_cases hx : x.1 = place
    · rw [if_pos hx, decide_eq_true hx, Bool.true_or]
      by_cases hq : q = place
      · simp [hq]
      · have hne : place ≠ q := Ne.symm hq
        have hxq : x.1 ≠ q := hx ▸ hne
        simpa [hq, hne, hxq] using ih
    · rw [if_neg hx, decide_eq_false hx, Bool.false_or]
      by_cases hxq : x.1 = q
      · have hq : q ≠ place := hxq ▸ hx
        simp [hxq, hq]
      · rw [List.find?_cons_of_neg (by simpa using hxq),
          List.find?_cons_of_neg (by simpa using hxq)]
        exact ih

/-- What is put somewhere stands there, and all else stays. -/
theorem at?_put (t : FileTree) {place : List String} (h : place ≠ []) (e : Option String)
    (q : List String) : (t.put place e).at? q = if q = place then some e else t.at? q := by
  by_cases hq : q = []
  · rw [hq, at?_nil, at?_nil, if_neg (Ne.symm h)]
  · rw [at?_of_ne_nil _ hq, at?_of_ne_nil _ hq, put]
    by_cases ha : t.entries.any (·.1 = place)
    · simp only [ha, if_true, find?_replace, and_true]
    · have hnone : t.entries.find? (·.1 = place) = none := by
        refine List.find?_eq_none.mpr fun x hx hxp => ha ?_
        exact List.any_eq_true.mpr ⟨x, hx, hxp⟩
      simp only [ha, Bool.false_eq_true, if_false, List.find?_append, Option.map_or]
      by_cases hp : q = place
      · subst hp
        simp [hnone]
      · have hne : place ≠ q := Ne.symm hp
        simp [hp, hne]

/-! Where paths lead. -/

theorem follow_append (t : FileTree) (here : List String) (xs ys : List String) :
    t.follow here (xs ++ ys) = t.follow here xs >>= fun place => t.follow place ys := by
  fun_induction follow t here xs with
  | case1 => rfl
  | _ => simp_all [follow, bind, Except.bind]

/-- From a directory a name leads on to another place. -/
inductive Step (t : FileTree) (here : List String) (n : String) : List String → Prop
  | stay (dir : t.at? here = some none) (dot : n = ".") : Step t here n here
  | leave (dir : t.at? here = some none) (dots : n = "..") (inside : here ≠ []) :
      Step t here n here.dropLast
  | enter (dir : t.at? here = some none) (dot : n ≠ ".") (dots : n ≠ "..")
      (there : (t.at? (here ++ [n])).isSome) : Step t here n (here ++ [n])

theorem follow_cons_eq_ok {t : FileTree} {here ns place : List String} {n : String} :
    t.follow here (n :: ns) = .ok place ↔
      ∃ next, Step t here n next ∧ t.follow next ns = .ok place := by
  constructor
  · intro h
    rw [follow] at h
    split at h
    · next hd =>
      split_ifs at h with h1 h2 h3 h4
      · exact ⟨here, .stay hd h1, h⟩
      · exact ⟨here.dropLast, .leave hd h2 h3, h⟩
      · exact ⟨here ++ [n], .enter hd h1 h2 h4, h⟩
    · cases h
    · cases h
  · rintro ⟨next, hs, h⟩
    cases hs with
    | stay hd h1 => simpa [follow, hd, h1] using h
    | leave hd h2 hi => simpa [follow, hd, h2, hi] using h
    | enter hd h1 h2 ht => simpa [follow, hd, h1, h2, ht] using h

/-- A tree that has the directories of another one, and something wherever the other one has. -/
structure Keeps (t t' : FileTree) : Prop where
  directories : ∀ q, t.at? q = some none → t'.at? q = some none
  entries : ∀ q, (t.at? q).isSome → (t'.at? q).isSome

theorem Keeps.refl (t : FileTree) : Keeps t t := ⟨fun _ => id, fun _ => id⟩

theorem Keeps.trans {t t' t'' : FileTree} (h : Keeps t t') (h' : Keeps t' t'') : Keeps t t'' :=
  ⟨fun q hq => h'.directories q (h.directories q hq), fun q hq => h'.entries q (h.entries q hq)⟩

theorem ne_nil_of_at? {t : FileTree} {place : List String} (h : t.at? place ≠ some none) :
    place ≠ [] := fun hp => h (by rw [hp, at?_nil])

/-- What is put anywhere but over a directory leaves all directories. -/
theorem keeps_put {t : FileTree} {place : List String} (h : t.at? place ≠ some none)
    (e : Option String) : Keeps t (t.put place e) := by
  constructor
  · intro q hq
    rw [at?_put t (ne_nil_of_at? h)]
    split_ifs with hp
    · exact absurd (hp ▸ hq) h
    · exact hq
  · intro q hq
    rw [at?_put t (ne_nil_of_at? h)]
    split_ifs
    · rfl
    · exact hq

theorem Step.of_keeps {t t' : FileTree} (hk : Keeps t t') {here next : List String} {n : String}
    (h : Step t here n next) : Step t' here n next := by
  cases h with
  | stay hd h1 => exact .stay (hk.directories _ hd) h1
  | leave hd h2 hi => exact .leave (hk.directories _ hd) h2 hi
  | enter hd h1 h2 ht => exact .enter (hk.directories _ hd) h1 h2 (hk.entries _ ht)

/-- A way that exists is not changed by what comes to a tree. -/
theorem follow_of_keeps {t t' : FileTree} (hk : Keeps t t') {here names place : List String}
    (h : t.follow here names = .ok place) : t'.follow here names = .ok place := by
  induction names generalizing here with
  | nil => exact h
  | cons n ns ih =>
    obtain ⟨next, hs, hn⟩ := follow_cons_eq_ok.mp h
    exact follow_cons_eq_ok.mpr ⟨next, hs.of_keeps hk, ih hn⟩

/-- A path leads to a directory. The empty one stays where it is. -/
structure DirectoryAt (t : FileTree) (p : Path) (place : List String) : Prop where
  relative : p.isAbsolute = false
  leads : t.follow [] (Path.names p) = .ok place
  directory : t.at? place = some none

theorem DirectoryAt.of_keeps {t t' : FileTree} (hk : Keeps t t') {p : Path} {place : List String}
    (h : DirectoryAt t p place) : DirectoryAt t' p place :=
  ⟨h.relative, follow_of_keeps hk h.leads, hk.directories _ h.directory⟩

theorem namesOf_eq (p : Path) :
    namesOf p = Path.names p ++ if p.toList.getLast? = some '/' then ["."] else [] := by
  rw [namesOf, Path.names]
  split_ifs <;> simp

/-- A slash or a dot behind the path of a directory changes nothing. -/
theorem follow_dot {t : FileTree} {here place : List String} {names : List String}
    (hd : t.at? place = some none) :
    t.follow here (names ++ ["."]) = .ok place ↔ t.follow here names = .ok place := by
  rw [follow_append]
  cases h : t.follow here names with
  | error fault => simp [bind, Except.bind]
  | ok q =>
    have hstep : t.follow q ["."] = .ok place ↔ q = place := by
      rw [follow_cons_eq_ok]
      constructor
      · rintro ⟨next, hs, hn⟩
        cases hs with
        | stay => exact Except.ok.inj hn
        | leave _ hdots => exact absurd hdots (by decide)
        | enter _ hdot => exact absurd rfl hdot
      · rintro rfl
        exact ⟨q, .stay hd rfl, rfl⟩
    simpa [bind, Except.bind] using hstep

theorem DirectoryAt.resolve {t : FileTree} {p : Path} {place : List String}
    (h : DirectoryAt t p place) (hp : p ≠ "") : t.resolve p = .ok place := by
  have hl : t.follow [] (namesOf p) = .ok place := by
    rw [namesOf_eq]
    split_ifs
    · exact (follow_dot h.directory).mpr h.leads
    · rw [List.append_nil]
      exact h.leads
  simpa [FileTree.resolve, hp, h.relative] using hl

theorem directoryAt_of_resolve {t : FileTree} {p : Path} {place : List String}
    (h : t.resolve p = .ok place) (hd : t.at? place = some none) : DirectoryAt t p place := by
  rw [FileTree.resolve] at h
  split_ifs at h with hp
  rw [Bool.or_eq_true, not_or, decide_eq_true_eq, Bool.not_eq_true] at hp
  refine ⟨hp.2, ?_, hd⟩
  rw [namesOf_eq] at h
  split_ifs at h
  · exact (follow_dot hd).mp h
  · rwa [List.append_nil] at h

/-! Files in a directory. -/

section DirectoryAt

variable {t : FileTree} {p : Path} {place : List String} (h : DirectoryAt t p place) {n : String}
  (hn : Path.IsName n)
include h hn

/-- A name behind the path of a directory, if something of that name is in it. -/
theorem resolve_join (there : (t.at? (place ++ [n])).isSome) :
    t.resolve (Path.join p n) = .ok (place ++ [n]) := by
  have hl : t.follow [] (Path.names p ++ [n]) = .ok (place ++ [n]) := by
    rw [follow_append, h.leads]
    exact follow_cons_eq_ok.mpr ⟨_, .enter h.directory hn.dot hn.dots there, rfl⟩
  rw [FileTree.resolve, if_neg, namesOf_eq, Path.names_join p hn, Path.getLast?_join p hn,
    if_neg (Path.getLast?_ne_slash hn), List.append_nil, hl]
  rw [Path.isAbsolute_join p hn, h.relative, Bool.or_false, decide_eq_true_eq]
  exact Path.join_ne_empty p hn

theorem read_join {content : String} (hc : t.at? (place ++ [n]) = some (some content)) :
    t.read (Path.join p n) = .ok content := by
  rw [read, resolve_join h hn (by simp [hc])]
  simp [bind, Except.bind, hc]

theorem newPlace_join : t.newPlace (Path.join p n) = .ok (place ++ [n], false) := by
  have habsolute : (Path.join p n).isAbsolute = false :=
    (Path.isAbsolute_join p hn).trans h.relative
  have hnames : ((Path.split (Path.join p n).toList).filter (· ≠ [])).map String.ofList =
      Path.names p ++ [n] := Path.names_join p hn
  rw [newPlace, hnames]
  simp [bind, Except.bind, pure, Except.pure, Path.join_ne_empty p hn, habsolute, hn.dot, hn.dots,
    h.leads, h.directory]

/-- A file is written unless a directory is in its place. -/
theorem write_join (content : String) :
    t.write (Path.join p n) content =
      if t.at? (place ++ [n]) = some none then .error .isDirectory
      else .ok (t.put (place ++ [n]) (some content)) := by
  have hl : (Path.join p n).toList.getLast? ≠ some '/' := by
    rw [Path.getLast?_join p hn]
    exact Path.getLast?_ne_slash hn
  rw [write, newPlace_join h hn]
  by_cases hd : t.at? (place ++ [n]) = some none
  · simp [bind, Except.bind, hd]
  · simp [bind, Except.bind, pure, Except.pure, hd, hl]

end DirectoryAt

/-! Directories that are made. -/

/-- A tree with nothing but directories more than another one. -/
def Grows (t t' : FileTree) : Prop :=
  ∀ q, t'.at? q = t.at? q ∨ t.at? q = none ∧ t'.at? q = some none

namespace Grows

theorem refl (t : FileTree) : Grows t t := fun _ => .inl rfl

theorem trans {t t' t'' : FileTree} (h : Grows t t') (h' : Grows t' t'') : Grows t t'' := by
  intro q
  rcases h q with hq | ⟨hq, hd⟩
  · rw [← hq]
    exact h' q
  · rcases h' q with hq' | ⟨hq', -⟩
    · exact .inr ⟨hq, hq'.trans hd⟩
    · rw [hd] at hq'
      cases hq'

theorem keeps {t t' : FileTree} (h : Grows t t') : Keeps t t' := by
  constructor
  · intro q hq
    rcases h q with hq' | ⟨hn, -⟩
    · exact hq'.trans hq
    · rw [hq] at hn
      cases hn
  · intro q hq
    rcases h q with hq' | ⟨-, hd⟩
    · rwa [hq']
    · rw [hd]
      rfl

/-- Files stay what they are. -/
theorem at?_eq_some_some {t t' : FileTree} (h : Grows t t') (q : List String) (content : String) :
    t'.at? q = some (some content) ↔ t.at? q = some (some content) := by
  rcases h q with hq | ⟨hn, hd⟩
  · rw [hq]
  · simp [hn, hd]

theorem join_at? {t t' : FileTree} (h : Grows t t') (q : List String) :
    (t'.at? q).join = (t.at? q).join := by
  rcases h q with hq | ⟨hn, hd⟩
  · rw [hq]
  · rw [hn, hd]
    rfl

end Grows

theorem grows_put {t : FileTree} {place : List String} (h : t.at? place = none) :
    Grows t (t.put place none) := by
  have hne : place ≠ [] := ne_nil_of_at? (t := t) (by simp [h])
  intro q
  rw [at?_put t hne]
  split_ifs with hq
  · exact .inr ⟨hq ▸ h, rfl⟩
  · exact .inl rfl

theorem exists_directoryAt_of_isDirectory {t : FileTree} {p : Path} (h : t.isDirectory p) :
    ∃ place, DirectoryAt t p place := by
  rw [isDirectory] at h
  split at h
  · next place hr => exact ⟨place, directoryAt_of_resolve hr (by simpa using h)⟩
  · cases h

/-- A new place is where the whole path leads, or a new name in the directory before it. -/
theorem newPlace_eq_ok {t : FileTree} {p : Path} {place : List String} {b : Bool}
    (h : t.newPlace p = .ok (place, b)) :
    p.isAbsolute = false ∧ (t.follow [] (Path.names p) = .ok place ∨
      ∃ front n dir, Path.names p = front ++ [n] ∧ n ≠ "." ∧ n ≠ ".." ∧
        t.follow [] front = .ok dir ∧ t.at? dir = some none ∧ place = dir ++ [n]) := by
  have hnames : ((Path.split p.toList).filter (· ≠ [])).map String.ofList = Path.names p := rfl
  rw [newPlace, hnames] at h
  by_cases hp : (p = "" || p.isAbsolute) = true
  · simp [hp, bind, Except.bind] at h
  · have habsolute : p.isAbsolute = false := by simp_all
    refine ⟨habsolute, ?_⟩
    simp only [hp, Bool.false_eq_true, if_false, bind, Except.bind, pure, Except.pure] at h
    split at h
    · cases h
    · next n hlast =>
      split_ifs at h with hdots
      · split at h
        · cases h
        · next q hq =>
          cases h
          exact .inl hq
      · rw [Bool.or_eq_true, not_or, decide_eq_true_eq, decide_eq_true_eq] at hdots
        split at h
        · cases h
        · next dir hfront =>
          split at h
          · next hd =>
            cases h
            refine .inr ⟨(Path.names p).dropLast, n, dir, ?_, hdots.1, hdots.2, hfront, hd, rfl⟩
            exact (List.dropLast_append_getLast? n hlast).symm
          · cases h
          · cases h

theorem makeDirectory_eq_ok {t t' : FileTree} {p : Path} (h : t.makeDirectory p = .ok t') :
    Grows t t' ∧ ∃ place, DirectoryAt t' p place := by
  rw [makeDirectory] at h
  cases hnew : t.newPlace p with
  | error fault => simp [hnew, bind, Except.bind] at h
  | ok found =>
    obtain ⟨place, b⟩ := found
    obtain ⟨hrelative, hway⟩ := newPlace_eq_ok hnew
    simp only [hnew, bind, Except.bind, pure, Except.pure] at h
    split_ifs at h with hthere
    obtain rfl := Except.ok.inj h
    have hnone : t.at? place = none := by simpa using hthere
    have hgrows : Grows t (t.put place none) := grows_put hnone
    have hmade : (t.put place none).at? place = some none := by
      rw [at?_put t (ne_nil_of_at? (t := t) (by simp [hnone])), if_pos rfl]
    refine ⟨hgrows, place, hrelative, ?_, hmade⟩
    obtain hleads | ⟨front, n, dir, hnames, hdot, hdots, hfront, hd, rfl⟩ := hway
    · exact follow_of_keeps hgrows.keeps hleads
    · rw [hnames, follow_append, follow_of_keeps hgrows.keeps hfront]
      refine follow_cons_eq_ok.mpr ⟨_, .enter (hgrows.keeps.directories dir hd) hdot hdots ?_, rfl⟩
      rw [hmade]
      rfl

/-- What was made on the way to a directory, and the directory if nothing went wrong. -/
def Made (t : FileTree) (p : Path) (r : FileTree × Except FileFault Unit) : Prop :=
  Grows t r.1 ∧ (r.2 = .ok () → ∃ place, DirectoryAt r.1 p place)

/-- A directory that cannot be made may be there already. -/
theorem made_settled {t t' : FileTree} (h : Grows t t') (p : Path) (fault : FileFault) :
    Made t p (t', if t'.isDirectory p then .ok () else .error fault) := by
  refine ⟨h, fun hok => ?_⟩
  by_cases hd : t'.isDirectory p
  · exact exists_directoryAt_of_isDirectory hd
  · simp [hd] at hok

theorem made_makeDirectoriesWithin (fuel : Nat) (t : FileTree) (p : Path) :
    Made t p (makeDirectoriesWithin fuel t p) := by
  induction fuel generalizing t p with
  | zero => exact ⟨.refl t, fun h => nomatch h⟩
  | succ fuel ih =>
    rw [makeDirectoriesWithin]
    split_ifs with hp
    · exact ⟨.refl t, fun _ => ⟨[], by rw [hp]; rfl, by rw [hp]; rfl, rfl⟩⟩
    · split
      · next t' hmade =>
        exact ⟨(makeDirectory_eq_ok hmade).1, fun _ => (makeDirectory_eq_ok hmade).2⟩
      · split
        · exact ⟨.refl t, fun h => nomatch h⟩
        · next parent _ =>
          have hparent := ih t parent
          split
          · next t' hr =>
            rw [hr] at hparent
            split
            · next t'' hmade =>
              obtain ⟨hgrows, hd⟩ := makeDirectory_eq_ok hmade
              exact ⟨hparent.1.trans hgrows, fun _ => hd⟩
            · next fault _ => exact made_settled hparent.1 p fault
          · next hfailed =>
            refine ⟨hparent.1, fun hok => ?_⟩
            exact (hfailed _ (Prod.ext rfl hok)).elim
      · next fault _ _ => exact made_settled (.refl t) p fault

/-- Making directories leaves all files as they are, and a directory where the path leads. -/
theorem made_makeDirectories (t : FileTree) (p : Path) : Made t p (t.makeDirectories p) :=
  made_makeDirectoriesWithin _ t p

/-! What is in a directory. -/

/-- The entries of a tree stand in different places, under names. -/
structure WellFormed (t : FileTree) : Prop where
  distinct : (t.entries.map (·.1)).Nodup
  named : ∀ x ∈ t.entries, ∀ n ∈ x.1, Path.IsName n

instance (t : FileTree) : Decidable t.WellFormed :=
  decidable_of_iff ((t.entries.map (·.1)).Nodup ∧ ∀ x ∈ t.entries, ∀ n ∈ x.1, Path.IsName n)
    ⟨fun ⟨hd, hn⟩ => ⟨hd, hn⟩, fun h => ⟨h.distinct, h.named⟩⟩

theorem WellFormed.at?_eq_some {t : FileTree} (hw : t.WellFormed) {place : List String}
    (h : place ≠ []) {e : Option String} : t.at? place = some e ↔ (place, e) ∈ t.entries := by
  rw [at?_of_ne_nil t h, Option.map_eq_some_iff]
  constructor
  · rintro ⟨x, hx, rfl⟩
    have hp : x.1 = place := by simpa using List.find?_some hx
    rw [← hp]
    exact List.mem_of_find?_eq_some hx
  · intro hm
    have hex : ∃ x ∈ t.entries, x.1 = place := ⟨_, hm, rfl⟩
    obtain ⟨x, hx⟩ := Option.isSome_iff_exists.mp
      (List.find?_isSome.mpr (by simpa using hex) : (t.entries.find? (·.1 = place)).isSome)
    refine ⟨x, hx, ?_⟩
    have hp : x.1 = place := by simpa using List.find?_some hx
    exact congrArg Prod.snd
      (List.inj_on_of_nodup_map hw.distinct (List.mem_of_find?_eq_some hx) hm hp)

/-- The entries of the files in a directory, by their names. -/
theorem listed_eq_some {dir q : List String} {e : Option String} {n : String} :
    (if q.dropLast = dir && e.isSome && q ≠ [] then q.getLast? else none) = some n ↔
      q = dir ++ [n] ∧ e.isSome := by
  constructor
  · intro h
    split_ifs at h with hc
    simp only [Bool.and_eq_true, decide_eq_true_eq] at hc
    refine ⟨?_, hc.1.2⟩
    rw [← hc.1.1]
    exact (List.dropLast_append_getLast? n h).symm
  · rintro ⟨rfl, he⟩
    simp [he]

/-- A directory lists the files in it, each once. -/
theorem WellFormed.list_eq_ok {t : FileTree} (hw : t.WellFormed) {p : Path} {dir : List String}
    (h : t.resolve p = .ok dir) :
    ∃ names, t.list p = .ok names ∧ names.Nodup ∧
      ∀ n, n ∈ names ↔ Path.IsName n ∧ ∃ content, t.at? (dir ++ [n]) = some (some content) := by
  refine ⟨_, by rw [list, h]; rfl, ?_, fun n => ?_⟩
  · refine List.pairwise_filterMap.mpr ((List.pairwise_map.mp hw.distinct).imp ?_)
    intro x y hxy n hn n' hn' heq
    have hx := (listed_eq_some.mp hn).1
    have hy := (listed_eq_some.mp hn').1
    exact hxy (by rw [hx, hy, heq])
  · rw [List.mem_filterMap]
    constructor
    · rintro ⟨⟨q, e⟩, hm, hn⟩
      obtain ⟨rfl, he⟩ := listed_eq_some.mp hn
      obtain ⟨content, rfl⟩ := Option.isSome_iff_exists.mp he
      refine ⟨hw.named _ hm n (by simp), content, (hw.at?_eq_some (by simp)).mpr hm⟩
    · rintro ⟨-, content, hc⟩
      exact ⟨_, (hw.at?_eq_some (by simp)).mp hc, listed_eq_some.mpr ⟨rfl, rfl⟩⟩

end FileTree
end ApiSurface
