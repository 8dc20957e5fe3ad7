import Mathlib
import ApiSurface.CommandLine.Changelog
import ApiSurface.Proofs.FileTrees
import ApiSurface.Proofs.VersionOrder

/-! The files a changelog is made from. A file in a directory is a release exactly when its name is
that of a version with the ending of documents behind it, and no report has such a name. -/
namespace ApiSurface
namespace Path

/-! A name behind the path of a directory. -/

theorem isVoid_name {n : String} (h : IsName n) : isVoid n.toList = false := by
  have hn : n.toList ≠ [] := by simpa using h.nonempty
  have hdot : n.toList ≠ ['.'] := fun hd => h.dot (String.toList_injective hd)
  simp [isVoid, hn, hdot]

theorem getLast?_parts_join (p : Path) {n : String} (h : IsName n) :
    (parts (join p n)).getLast? = some n.toList := by
  obtain ⟨front, hj, -⟩ := split_join p h.slash
  have hfilter (xs : List (List Char)) :
      ((xs ++ [n.toList]).filter (!isVoid ·)).getLast? = some n.toList := by
    rw [List.filter_append, List.filter_singleton, isVoid_name h]
    simp
  rw [parts, hj]
  split
  · next rest hrest =>
    cases front with
    | nil =>
      have hdot : n.toList = ['.'] := (List.cons.inj hrest).1
      exact absurd (String.toList_injective hdot) h.dot
    | cons first front =>
      have hfront : front ++ [n.toList] = rest := (List.cons.inj hrest).2
      rw [← hfront, List.getLast?_cons, hfilter, Option.getD_some]
  · exact hfilter front

theorem fileName?_join (p : Path) {n : String} (h : IsName n) :
    fileName? (join p n) = some n.toList := by
  have hdot : n.toList ≠ ['.'] := fun hd => h.dot (String.toList_injective hd)
  have hdots : n.toList ≠ ['.', '.'] := fun hd => h.dots (String.toList_injective hd)
  rw [fileName?, getLast?_parts_join p h]
  split <;> simp_all

/-- A name is cut at its last dot, unless nothing is before it. -/
theorem splitName_eq_some {name stem extension : List Char} :
    splitName name = (stem, some extension) ↔
      name = stem ++ '.' :: extension ∧ stem ≠ [] ∧ '.' ∉ extension := by
  constructor
  · intro h
    have hcut := List.takeWhile_append_dropWhile (p := (· ≠ '.')) (l := name.reverse)
    rw [splitName] at h
    split at h
    · next c front hdrop =>
      obtain ⟨rfl, hextension⟩ := Prod.mk.inj h
      obtain rfl := Option.some.inj hextension
      rw [hdrop] at hcut
      refine ⟨?_, by simp, ?_⟩
      · calc name = (name.reverse.takeWhile (· ≠ '.') ++ '.' :: c :: front).reverse := by
              rw [hcut, List.reverse_reverse]
          _ = (c :: front).reverse ++ '.' :: (name.reverse.takeWhile (· ≠ '.')).reverse := by
              simp only [List.reverse_append, List.reverse_cons, List.append_assoc,
                List.cons_append, List.nil_append]
      · intro hdot
        simpa using List.mem_takeWhile_imp (List.mem_reverse.mp hdot)
    · cases (Prod.mk.inj h).2
  · rintro ⟨rfl, hstem, hdot⟩
    obtain ⟨c, front, hrev⟩ := List.exists_cons_of_ne_nil (List.reverse_ne_nil_iff.mpr hstem)
    have hplain : ∀ x ∈ extension.reverse, decide (x ≠ '.') = true := by
      intro x hx
      exact decide_eq_true fun hd => hdot (hd ▸ List.mem_reverse.mp hx)
    have hback : (stem ++ '.' :: extension).reverse = extension.reverse ++ '.' :: c :: front := by
      simp [hrev]
    have htake : (stem ++ '.' :: extension).reverse.takeWhile (· ≠ '.') = extension.reverse := by
      rw [hback, List.takeWhile_append_of_pos hplain]
      simp
    have hdrop : (stem ++ '.' :: extension).reverse.dropWhile (· ≠ '.') = '.' :: c :: front := by
      rw [hback, List.dropWhile_append_of_pos hplain]
      simp
    have hsplit : splitName (stem ++ '.' :: extension) =
        ((c :: front).reverse, some extension.reverse.reverse) := by
      rw [splitName, htake, hdrop]
      rfl
    rw [hsplit, ← hrev, List.reverse_reverse, List.reverse_reverse]

end Path

namespace CommandLine

open Report (Format)

/-! Names of stored documents. -/

/-- A version that a stored document may be named for; what ends like the stem of a report is none.
-/
structure IsVersion (v : String) : Prop where
  nonempty : v ≠ ""
  ordinary : ¬Format.stemSuffix.toList <:+ v.toList

/-- The name of the stored document of a version. -/
def documentName (v : String) : String := v ++ ".json"

theorem toList_documentName (v : String) :
    (documentName v).toList = v.toList ++ '.' :: "json".toList := by
  rw [documentName, String.toList_append]
  rfl

theorem documentName_injective : Function.Injective documentName := by
  intro u v h
  have hlists := congrArg String.toList h
  rw [toList_documentName, toList_documentName] at hlists
  exact String.toList_injective (List.append_cancel_right hlists)

theorem splitName_documentName {v : String} (h : v ≠ "") :
    Path.splitName (documentName v).toList = (v.toList, some "json".toList) := by
  exact Path.splitName_eq_some.mpr ⟨toList_documentName v, by simpa using h, by decide⟩

theorem stem_join_documentName (p : Path) {v : String} (hn : Path.IsName (documentName v))
    (h : v ≠ "") : Path.stem (Path.join p (documentName v)) = v := by
  rw [Path.stem, Path.fileName?_join p hn]
  simp [splitName_documentName h]

theorem isRelease_iff (p : Path) :
    isRelease p ↔ p.extension? = some "json" ∧ ¬Format.stemSuffix.toList <:+ p.stem.toList := by
  rw [isRelease, Bool.and_eq_true, decide_eq_true_eq, Bool.not_eq_true', ← Bool.not_eq_true,
    List.isSuffixOf_iff_suffix]

/-- Releases are the stored documents of versions. -/
theorem isRelease_join (p : Path) {n : String} (hn : Path.IsName n) :
    isRelease (Path.join p n) ↔ ∃ v, IsVersion v ∧ n = documentName v := by
  have hname := Path.fileName?_join p hn
  rw [isRelease_iff]
  constructor
  · rintro ⟨hextension, hordinary⟩
    rw [Path.extension?, hname, Option.bind_some, Option.map_eq_some_iff] at hextension
    obtain ⟨extension, hcut, hjson⟩ := hextension
    obtain ⟨stem, hstem⟩ : ∃ stem, Path.splitName n.toList = (stem, some extension) :=
      ⟨_, Prod.ext rfl hcut⟩
    obtain ⟨happend, hne, -⟩ := Path.splitName_eq_some.mp hstem
    have hpath : Path.stem (Path.join p n) = String.ofList stem := by
      rw [Path.stem, hname]
      simp [hstem]
    have hext : extension = "json".toList := by
      rw [← hjson, String.toList_ofList]
    refine ⟨String.ofList stem, ⟨by simpa using hne, hpath ▸ hordinary⟩, ?_⟩
    apply String.toList_injective
    rw [toList_documentName, String.toList_ofList, happend, hext]
  · rintro ⟨v, hv, rfl⟩
    rw [stem_join_documentName p hn hv.nonempty, Path.extension?, hname]
    refine ⟨?_, hv.ordinary⟩
    simp [splitName_documentName hv.nonempty]

/-- The release of a version in a directory. -/
def release (directory : Path) (v : String) : Release :=
  ⟨v, Path.join directory (documentName v)⟩

section Releases

variable (directory : Path) {names : List String} (hnames : ∀ n ∈ names, Path.IsName n)
include hnames

theorem mem_releases {r : Release} :
    r ∈ releases directory names ↔
      ∃ v, IsVersion v ∧ documentName v ∈ names ∧ r = release directory v := by
  rw [releases, (Version.sortOn_perm _ _).mem_iff, List.mem_map]
  simp only [List.mem_filter, List.mem_map]
  constructor
  · rintro ⟨path, ⟨⟨n, hn, rfl⟩, hrelease⟩, rfl⟩
    obtain ⟨v, hv, rfl⟩ := (isRelease_join directory (hnames n hn)).mp hrelease
    refine ⟨v, hv, hn, ?_⟩
    rw [stem_join_documentName directory (hnames _ hn) hv.nonempty, release]
  · rintro ⟨v, hv, hn, rfl⟩
    refine ⟨_, ⟨⟨_, hn, rfl⟩, (isRelease_join directory (hnames _ hn)).mpr ⟨v, hv, rfl⟩⟩, ?_⟩
    rw [stem_join_documentName directory (hnames _ hn) hv.nonempty, release]

theorem nodup_releases (hd : names.Nodup) :
    ((releases directory names).map Release.version).Nodup := by
  rw [releases, ((Version.sortOn_perm _ _).map _).nodup_iff, List.filter_map, List.map_map,
    List.map_map]
  refine List.Nodup.map_on ?_ (hd.filter _)
  intro n hn n' hn' heq
  obtain ⟨hn, hrelease⟩ := List.mem_filter.mp hn
  obtain ⟨hn', hrelease'⟩ := List.mem_filter.mp hn'
  obtain ⟨v, hv, rfl⟩ := (isRelease_join directory (hnames n hn)).mp hrelease
  obtain ⟨v', hv', rfl⟩ := (isRelease_join directory (hnames n' hn')).mp hrelease'
  simp only [Function.comp_apply, stem_join_documentName directory (hnames _ hn) hv.nonempty,
    stem_join_documentName directory (hnames _ hn') hv'.nonempty] at heq
  rw [heq]

/-- The releases of a directory, as the versions of its documents in ascending order. -/
theorem exists_versions (hd : names.Nodup) :
    ∃ vs : List String, releases directory names = vs.map (release directory) ∧ vs.Nodup ∧
      vs.Pairwise (fun u v => (Version.compareTexts u v).isLE) ∧
      ∀ v, v ∈ vs ↔ IsVersion v ∧ documentName v ∈ names := by
  refine ⟨(releases directory names).map Release.version, ?_, nodup_releases directory hnames hd,
    List.pairwise_map.mpr (Version.pairwise_sortOn _ _), fun v => ?_⟩
  · rw [List.map_map]
    refine (List.map_id _).symm.trans (List.map_congr_left fun r hr => ?_)
    obtain ⟨v, -, -, rfl⟩ := (mem_releases directory hnames).mp hr
    rfl
  · rw [List.mem_map]
    constructor
    · rintro ⟨r, hr, rfl⟩
      obtain ⟨v, hv, hn, rfl⟩ := (mem_releases directory hnames).mp hr
      exact ⟨hv, hn⟩
    · rintro ⟨hv, hn⟩
      exact ⟨release directory v, (mem_releases directory hnames).mpr ⟨v, hv, hn, rfl⟩, rfl⟩

end Releases

/-! Names of reports. -/

theorem toList_fileName (v : String) (f : Format) :
    (f.fileName v).toList =
      v.toList ++ Format.stemSuffix.toList ++ '.' :: f.extension.toList := by
  simp only [Format.fileName, String.toList_append, List.append_assoc]
  rfl

theorem fileName_injective (f : Format) : Function.Injective fun v => f.fileName v := by
  intro u v h
  have hlists := congrArg String.toList h
  simp only [toList_fileName, List.append_assoc] at hlists
  exact String.toList_injective (List.append_cancel_right hlists)

theorem isName_documentName {v : String} : Path.IsName (documentName v) ↔ '/' ∉ v.toList := by
  constructor
  · intro h hv
    refine h.slash ?_
    rw [toList_documentName]
    exact List.mem_append_left _ hv
  · intro h
    refine Path.isName_of_length ?_ ?_
    · simp [toList_documentName]
    · simp [toList_documentName, h]

/-- The report on a version can stand wherever its document can. -/
theorem isName_fileName {v : String} (h : Path.IsName (documentName v)) (f : Format) :
    Path.IsName (f.fileName v) := by
  have hslash : '/' ∉ v.toList := isName_documentName.mp h
  refine Path.isName_of_length ?_ ?_
  · rw [toList_fileName]
    simp [Format.stemSuffix]
    omega
  · rw [toList_fileName]
    cases f <;> simp [hslash, Format.stemSuffix, Format.extension]

/-- No report is taken for a stored document. -/
theorem fileName_ne_documentName (f : Format) (u : String) {v : String} (h : IsVersion v) :
    f.fileName u ≠ documentName v := by
  intro heq
  have hlists := congrArg String.toList heq
  rw [toList_fileName, toList_documentName] at hlists
  have hcut : Path.splitName (v.toList ++ '.' :: "json".toList) =
      (u.toList ++ Format.stemSuffix.toList, some f.extension.toList) := by
    rw [← hlists]
    exact Path.splitName_eq_some.mpr ⟨rfl, by simp [Format.stemSuffix], by cases f <;> decide⟩
  rw [← toList_documentName, splitName_documentName h.nonempty] at hcut
  exact h.ordinary ⟨u.toList, (Prod.mk.inj hcut).1.symm⟩

end CommandLine
end ApiSurface
