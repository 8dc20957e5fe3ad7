import Mathlib
import ApiSurface.Proofs.ChangelogRuns

/-! Changelogs of directories. Whatever else is in a directory, each stored version that follows
another one gets one report, on what is new since that version. What cannot be decoded or written
costs its own note and nothing else. -/
namespace ApiSurface.CommandLine

open Version (compareTexts)

/-! Neighbours. -/

section Neighbours

variable {α : Type} {R : α → α → Prop} (htrans : ∀ {a b c}, R a b → R b c → R a c)
  (hirrefl : ∀ a, ¬R a a)
include htrans hirrefl

/-- In an ascending list two members are neighbours when nothing in it is between them. -/
theorem mem_zip_tail {xs : List α} (h : xs.Pairwise R) {a b : α} :
    (a, b) ∈ xs.zip xs.tail ↔ a ∈ xs ∧ b ∈ xs ∧ R a b ∧ ∀ c ∈ xs, ¬(R a c ∧ R c b) := by
  induction xs with
  | nil => simp
  | cons x xs ih =>
    obtain ⟨hx, hxs⟩ := List.pairwise_cons.mp h
    cases xs with
    | nil =>
      simp only [List.tail_cons, List.zip_nil_right, List.not_mem_nil, List.mem_singleton,
        false_iff]
      rintro ⟨rfl, rfl, hab, -⟩
      exact hirrefl _ hab
    | cons y ys =>
      have hy := (List.pairwise_cons.mp hxs).1
      have hxy : R x y := hx y List.mem_cons_self
      have hmem : (a, b) ∈ (x :: y :: ys).zip (x :: y :: ys).tail ↔
          (a = x ∧ b = y) ∨ (a, b) ∈ (y :: ys).zip (y :: ys).tail := by
        simp only [List.tail_cons, List.zip_cons_cons, List.mem_cons, Prod.mk.injEq]
      rw [hmem, ih hxs]
      constructor
      · rintro (⟨rfl, rfl⟩ | ⟨ha, hb, hab, hnone⟩)
        · refine ⟨List.mem_cons_self, by simp, hxy, fun c hc hbetween => ?_⟩
          rcases List.mem_cons.mp hc with rfl | hc
          · exact hirrefl _ hbetween.1
          · rcases List.mem_cons.mp hc with rfl | hc
            · exact hirrefl _ hbetween.2
            · exact hirrefl _ (htrans (hy c hc) hbetween.2)
        · refine ⟨List.mem_cons_of_mem x ha, List.mem_cons_of_mem x hb, hab, ?_⟩
          intro c hc hbetween
          rcases List.mem_cons.mp hc with rfl | hc
          · exact hirrefl _ (htrans (hx a ha) hbetween.1)
          · exact hnone c hc hbetween
      · rintro ⟨ha, hb, hab, hnone⟩
        have htail : b ∈ y :: ys := by
          rcases List.mem_cons.mp hb with rfl | hb
          · rcases List.mem_cons.mp ha with rfl | ha
            · exact absurd hab (hirrefl _)
            · exact absurd (htrans (hx a ha) hab) (hirrefl _)
          · exact hb
        rcases List.mem_cons.mp ha with rfl | ha
        · rcases List.mem_cons.mp htail with rfl | hlater
          · exact .inl ⟨rfl, rfl⟩
          · exact absurd ⟨hxy, hy b hlater⟩ (hnone y (by simp))
        · exact .inr ⟨ha, htail, hab, fun c hc => hnone c (List.mem_cons_of_mem x hc)⟩

end Neighbours

/-! What is stored in a directory. -/

/-- A document of a version stands in a directory. -/
structure VersionFile (t : FileTree) (dir : List String) (v text : String) : Prop where
  version : IsVersion v
  stands : t.at? (dir ++ [documentName v]) = some (some text)

/-- A version is stored in a directory, with a structure that can be decoded. -/
def Stored (t : FileTree) (dir : List String) (v : String) (s : Structure) : Prop :=
  ∃ text, VersionFile t dir v text ∧ Structure.decode text = .ok s

/-- Two stored versions of which the second follows the first, with none stored between them. -/
structure Successive (t : FileTree) (dir : List String) (u v : String) (s s' : Structure) :
    Prop where
  older : Stored t dir u s
  newer : Stored t dir v s'
  ascending : compareTexts u v = .lt
  adjacent : ∀ w r, Stored t dir w r → ¬(compareTexts u w = .lt ∧ compareTexts w v = .lt)

/-- The content of the file in a place. -/
def contentAt (t : FileTree) (place : List String) : String := (t.at? place).join.getD ""

/-- The releases of a directory are the documents of versions in it, in ascending order. -/
theorem exists_documents {t : FileTree} (hw : t.WellFormed) {p : Path} {dir : List String}
    (h : t.resolve p = .ok dir) :
    ∃ (names : List String) (docs : List (String × String)), t.list p = .ok names ∧
      releases p names = docs.map (fun d => release p d.1) ∧ (docs.map Prod.fst).Nodup ∧
      docs.Pairwise (fun d d' => (compareTexts d.1 d'.1).isLE) ∧
      (∀ v text, (v, text) ∈ docs ↔ VersionFile t dir v text) ∧
      ∀ d ∈ docs, Path.IsName (documentName d.1) := by
  obtain ⟨names, hlist, hd, hmem⟩ := hw.list_eq_ok h
  obtain ⟨vs, hreleases, hvs, hsorted, hversions⟩ :=
    exists_versions p (fun n hn => ((hmem n).mp hn).1) hd
  have hfst : (vs.map fun v => (v, contentAt t (dir ++ [documentName v]))).map Prod.fst = vs := by
    rw [List.map_map]
    exact List.map_id vs
  refine ⟨names, vs.map fun v => (v, contentAt t (dir ++ [documentName v])), hlist, ?_, ?_, ?_, ?_,
    ?_⟩
  · rw [hreleases, List.map_map]
    rfl
  · rw [hfst]
    exact hvs
  · exact List.pairwise_map.mpr hsorted
  · intro v text
    rw [List.mem_map]
    constructor
    · rintro ⟨u, hu, heq⟩
      obtain ⟨rfl, rfl⟩ := Prod.mk.inj heq
      obtain ⟨hv, hn⟩ := (hversions u).mp hu
      obtain ⟨-, content, hc⟩ := (hmem _).mp hn
      exact ⟨hv, by rw [contentAt, hc]; rfl⟩
    · rintro ⟨hv, hc⟩
      have hentry := (hw.at?_eq_some (by simp)).mp hc
      have hname : Path.IsName (documentName v) := hw.named _ hentry _ (by simp)
      refine ⟨v, (hversions v).mpr ⟨hv, (hmem _).mpr ⟨hname, text, hc⟩⟩, ?_⟩
      rw [contentAt, hc]
      rfl
  · intro d hd
    obtain ⟨v, hv, rfl⟩ := List.mem_map.mp hd
    exact ((hmem _).mp ((hversions v).mp hv).2).1

theorem decoded_eq_some {d : String × String} {v : String} {s : Structure} :
    (Structure.decode d.2).toOption.map (d.1, ·) = some (v, s) ↔
      d.1 = v ∧ Structure.decode d.2 = .ok s := by
  cases Structure.decode d.2 <;> simp [Except.toOption]

theorem undecoded_eq_some {d : String × String} {v : String} {fault : DocumentFault} :
    (match Structure.decode d.2 with
      | .ok _ => none
      | .error fault => some (d.1, fault)) = some (v, fault) ↔
      d.1 = v ∧ Structure.decode d.2 = .error fault := by
  cases Structure.decode d.2 <;> simp

section Documents

variable {t : FileTree} {dir : List String} {docs : List (String × String)}
  (hdocs : ∀ v text, (v, text) ∈ docs ↔ VersionFile t dir v text)
  (hd : (docs.map Prod.fst).Nodup)

section Members

include hdocs

theorem mem_loaded (v : String) (s : Structure) : (v, s) ∈ loaded docs ↔ Stored t dir v s := by
  rw [loaded, List.mem_filterMap]
  constructor
  · rintro ⟨⟨u, text⟩, hmem, h⟩
    obtain ⟨rfl, hdecode⟩ := decoded_eq_some.mp h
    exact ⟨text, (hdocs u text).mp hmem, hdecode⟩
  · rintro ⟨text, hv, hdecode⟩
    exact ⟨(v, text), (hdocs v text).mpr hv, decoded_eq_some.mpr ⟨rfl, hdecode⟩⟩

theorem mem_refused (v : String) (fault : DocumentFault) :
    (v, fault) ∈ refused docs ↔
      ∃ text, VersionFile t dir v text ∧ Structure.decode text = .error fault := by
  rw [refused, List.mem_filterMap]
  constructor
  · rintro ⟨⟨u, text⟩, hmem, h⟩
    obtain ⟨rfl, hdecode⟩ := undecoded_eq_some.mp h
    exact ⟨text, (hdocs u text).mp hmem, hdecode⟩
  · rintro ⟨text, hv, hdecode⟩
    exact ⟨(v, text), (hdocs v text).mpr hv, undecoded_eq_some.mpr ⟨rfl, hdecode⟩⟩

end Members

include hd in
theorem nodup_refused : (refused docs).Nodup := by
  refine List.pairwise_filterMap.mpr ((List.pairwise_map.mp hd).imp ?_)
  rintro d d' hne ⟨v, fault⟩ h ⟨v', fault'⟩ h' heq
  obtain ⟨hv, -⟩ := Prod.mk.inj heq
  exact hne ((undecoded_eq_some.mp h).1.trans (hv.trans (undecoded_eq_some.mp h').1.symm))

variable (hsorted : docs.Pairwise fun d d' => (compareTexts d.1 d'.1).isLE)
  (hdistinct : ∀ u v s s', Stored t dir u s → Stored t dir v s' → compareTexts u v = .eq → u = v)
include hdocs hd hsorted hdistinct

/-- What can be decoded comes in strictly ascending order. -/
theorem pairwise_loaded : (loaded docs).Pairwise fun a b => compareTexts a.1 b.1 = .lt := by
  refine List.pairwise_filterMap.mpr ((hsorted.and (List.pairwise_map.mp hd)).imp_of_mem ?_)
  rintro d d' hmem hmem' ⟨hle, hne⟩ ⟨u, s⟩ h ⟨v, s'⟩ h'
  obtain ⟨rfl, hdecode⟩ := decoded_eq_some.mp h
  obtain ⟨rfl, hdecode'⟩ := decoded_eq_some.mp h'
  cases hcompare : compareTexts d.1 d'.1 with
  | lt => rfl
  | eq =>
    have hstored : Stored t dir d.1 s := ⟨d.2, (hdocs _ _).mp hmem, hdecode⟩
    have hstored' : Stored t dir d'.1 s' := ⟨d'.2, (hdocs _ _).mp hmem', hdecode'⟩
    exact absurd (hdistinct _ _ s s' hstored hstored' hcompare) hne
  | gt => simp [hcompare] at hle

/-- A run compares the neighbours among the stored versions. -/
theorem mem_compared (u v : String) (s s' : Structure) :
    ((u, s), (v, s')) ∈ compared none docs ↔ Successive t dir u v s s' := by
  have hasc := pairwise_loaded hdocs hd hsorted hdistinct
  have hneighbours := mem_zip_tail
    (R := fun a b : String × Structure => compareTexts a.1 b.1 = .lt)
    (fun hab hbc => Version.compareTexts_lt_trans hab hbc)
    (fun a => Version.compareTexts_lt_irrefl a.1) hasc (a := (u, s)) (b := (v, s'))
  simp only [mem_loaded hdocs] at hneighbours
  refine hneighbours.trans ⟨?_, ?_⟩
  · rintro ⟨hu, hv, huv, hnone⟩
    exact ⟨hu, hv, huv, fun w r hw => hnone (w, r) hw⟩
  · rintro ⟨hu, hv, huv, hnone⟩
    exact ⟨hu, hv, huv, fun w hw => hnone w.1 w.2 hw⟩

end Documents

/-! Changelogs. -/

theorem lift_bind_run {σ α β : Type} {x : StateM σ α} {f : α → ExceptT Failure (StateM σ) β}
    {s s' : σ} {a : α} (h : x s = (a, s')) :
    ((liftM x : ExceptT Failure (StateM σ) α) >>= f).run.run s = (f a).run.run s' := by
  have hlift : ((liftM x : ExceptT Failure (StateM σ) α) >>= f).run =
      x >>= fun a => (f a).run := by
    simp only [ExceptT.run_bind, liftM, ExceptT.run_monadLift, monadLift_self, bind_map_left]
  rw [hlift]
  exact bind_run h

/-- A run of which all steps are known. -/
theorem changelog_ok {σ : Type} [Files (StateM σ)] {o : ChangelogOptions} {a b c d : σ}
    {names : List String} {p : Progress}
    (hlist : Files.list (m := StateM σ) o.input a = (.ok names, b))
    (hmake : Files.makeDirectories (m := StateM σ) o.output b = (.ok (), c))
    (hrun : (releases o.input names).foldlM (addRelease (m := StateM σ) o)
      ⟨none, countWarning o.input (releases o.input names).length⟩ c = (p, d)) :
    (changelog (m := StateM σ) o).run.run a = (.ok p.diagnostics, d) := by
  rw [changelog, lift_bind_run hlist, lift_bind_run hmake, lift_bind_run hrun]
  rfl

theorem changelog_run {o : ChangelogOptions} {t t₁ t₂ : FileTree} {names : List String}
    {p : Progress} (hlist : t.list o.input = .ok names)
    (hmake : t.makeDirectories o.output = (t₁, .ok ()))
    (hrun : (releases o.input names).foldlM (addRelease (m := StateM FileTree) o)
      ⟨none, countWarning o.input (releases o.input names).length⟩ t₁ = (p, t₂)) :
    (changelog (m := StateM FileTree) o).run.run t = (.ok p.diagnostics, t₂) :=
  changelog_ok ((list_run t o.input).trans (by rw [hlist])) (makeDirectories_run hmake) hrun

/-- The reports of a run: one on each stored version that follows another one, where a file can
stand, and nothing else. -/
structure ReportsSuccessions (o : ChangelogOptions) (t : FileTree) (dir : List String)
    (t₁ : FileTree) (out : List String) (t₂ : FileTree) : Prop where
  written : ∀ u v s s', Successive t dir u v s s' → t₁.at? (reportPlace o out v) ≠ some none →
    t₂.at? (reportPlace o out v) = some (some (Report.render
      (Comparison.compare o.report.dedupe s s') o.report.format (changesTitle u v) (some (u, v))))
  unchanged : ∀ q, (∀ u v s s', Successive t dir u v s s' → q = reportPlace o out v →
    t₁.at? q = some none) → t₂.at? q = t₁.at? q

/-- What a run tells: one note for each document that cannot be decoded and one for each report that
has a directory in its place, beside the warning of a directory with too few versions. -/
def TellsFailures (o : ChangelogOptions) (t : FileTree) (dir : List String) (t₁ : FileTree)
    (out : List String) (ds : List Diagnostic) : Prop :=
  ∃ (versions : List String) (bad : List (String × DocumentFault)) (obstructed : List String),
    ds.Perm (countWarning o.input versions.length ++
      (bad.map (fun d => refusal o d.1 d.2) ++ obstructed.map (obstruction o))) ∧
    (versions.Nodup ∧ ∀ v, v ∈ versions ↔ ∃ text, VersionFile t dir v text) ∧
    (bad.Nodup ∧ ∀ v fault, (v, fault) ∈ bad ↔
      ∃ text, VersionFile t dir v text ∧ Structure.decode text = .error fault) ∧
    obstructed.Nodup ∧ ∀ v, v ∈ obstructed ↔
      t₁.at? (reportPlace o out v) = some none ∧ ∃ u s s', Successive t dir u v s s'

section Outcomes

variable {o : ChangelogOptions} {t t₁ : FileTree} {dir out : List String}
  {docs : List (String × String)}
  (hcompared : ∀ u v s s', ((u, s), (v, s')) ∈ compared none docs ↔ Successive t dir u v s s')
  (hnodup : ((compared none docs).map (·.2.1)).Nodup)
include hcompared hnodup

theorem reportsSuccessions_foldl : ReportsSuccessions o t dir t₁ out
    ((compared none docs).foldl (withReport o out) t₁) := by
  constructor
  · intro u v s s' h hfree
    have hpair := (hcompared u v s s').mpr h
    have hplace : isObstructed o out t₁ v = false := decide_eq_false hfree
    rw [at?_foldl_withReport_of_mem hnodup hpair hplace]
    rfl
  · intro q hq
    refine at?_foldl_withReport_of_ne _ fun pair hpair heq => ?_
    have hsuccessive := (hcompared pair.1.1 pair.2.1 pair.1.2 pair.2.2).mp hpair
    have hplace := hq _ _ _ _ hsuccessive heq
    rw [heq] at hplace
    exact decide_eq_true hplace

theorem tellsFailures_of_perm (hdocs : ∀ v text, (v, text) ∈ docs ↔ VersionFile t dir v text)
    (hd : (docs.map Prod.fst).Nodup) {ds : List Diagnostic}
    (h : ds.Perm (countWarning o.input docs.length ++ notes o out t₁ none docs)) :
    TellsFailures o t dir t₁ out ds := by
  refine ⟨docs.map Prod.fst, refused docs,
    ((compared none docs).filter (isObstructed o out t₁ ·.2.1)).map (·.2.1), ?_, ⟨hd, ?_⟩,
    ⟨nodup_refused hd, mem_refused hdocs⟩, ?_, ?_⟩
  · rw [List.length_map, List.map_map]
    exact h
  · intro v
    simp only [List.mem_map, Prod.exists, exists_and_right, exists_eq_right, hdocs]
  · exact hnodup.sublist (List.filter_sublist.map _)
  · intro v
    rw [List.mem_map]
    constructor
    · rintro ⟨⟨⟨u, s⟩, w, s'⟩, hpair, rfl⟩
      obtain ⟨hpair, hobstructed⟩ := List.mem_filter.mp hpair
      exact ⟨of_decide_eq_true hobstructed, u, s, s', (hcompared _ _ _ _).mp hpair⟩
    · rintro ⟨hobstructed, u, s, s', hsuccessive⟩
      refine ⟨((u, s), (v, s')), List.mem_filter.mpr ⟨?_, decide_eq_true hobstructed⟩, rfl⟩
      exact (hcompared u v s s').mpr hsuccessive

end Outcomes

/-- Every stored version that follows another one gets its report, whatever else is in the
directory; what cannot be decoded or written costs one note and no other report. -/
theorem changelog_reports_successions (o : ChangelogOptions) (t t₁ : FileTree) (dir : List String)
    (hw : t.WellFormed) (hinput : t.resolve o.input = .ok dir) (hdir : t.at? dir = some none)
    (hmake : t.makeDirectories o.output = (t₁, .ok ()))
    (hdistinct : ∀ u v s s', Stored t dir u s → Stored t dir v s' →
      compareTexts u v = .eq → u = v) :
    ∃ out ds t₂, (changelog (m := StateM FileTree) o).run.run t = (.ok ds, t₂) ∧
      FileTree.DirectoryAt t₁ o.output out ∧ FileTree.Grows t t₁ ∧
      ReportsSuccessions o t dir t₁ out t₂ ∧ TellsFailures o t dir t₁ out ds := by
  obtain ⟨names, docs, hlist, hreleases, hd, hsorted, hdocs, hnames⟩ := exists_documents hw hinput
  obtain ⟨hgrows, hmade⟩ : FileTree.Made t o.output (t₁, .ok ()) :=
    hmake ▸ FileTree.made_makeDirectories t o.output
  obtain ⟨out, hout⟩ := hmade rfl
  have hready : Ready o dir out t₁ docs :=
    { input := (FileTree.directoryAt_of_resolve hinput hdir).of_keeps hgrows.keeps
      output := hout
      version := fun d hmem => ((hdocs d.1 d.2).mp hmem).version
      name := hnames
      text := fun d hmem => (hgrows.at?_eq_some_some _ _).mpr ((hdocs d.1 d.2).mp hmem).stands }
  obtain ⟨p, hrun, hsaid⟩ := foldlM_addRelease docs hready ⟨none, countWarning o.input docs.length⟩
  have hlength : (releases o.input names).length = docs.length := by
    rw [hreleases, List.length_map]
  rw [← hreleases, ← hlength] at hrun
  have hcompared := mem_compared hdocs hd hsorted hdistinct
  have hnodup := nodup_compared hd
  exact ⟨out, p.diagnostics, _, changelog_run hlist hmake hrun, hout, hgrows,
    reportsSuccessions_foldl hcompared hnodup,
    tellsFailures_of_perm hcompared hnodup hdocs hd hsaid⟩

/-- Four versions, of which the second is broken. -/
def brokenDocuments : List (String × String) :=
  [("1.0.0", "[]"), ("1.1.0", "["),
    ("1.2.0", "[\x7b\"type\":\"property\",\"name\":\"x\",\"propertyType\":\"int\"\x7d]"),
    ("1.3.0", "[]")]

/-- Their documents, with a directory in the place of the last report. -/
def brokenReleases : FileTree where
  entries := (["in"], none) :: (["in", "1.3.0.changes.txt"], none) ::
    brokenDocuments.map fun d => (["in", documentName d.1], some d.2)

theorem wellFormed_brokenReleases : brokenReleases.WellFormed := by decide

theorem mem_brokenDocuments {v text : String} (h : VersionFile brokenReleases ["in"] v text) :
    (v, text) ∈ brokenDocuments := by
  have hentry := (wellFormed_brokenReleases.at?_eq_some (by simp)).mp h.stands
  rcases List.mem_cons.mp hentry with heq | hentry
  · simp at heq
  · rcases List.mem_cons.mp hentry with heq | hentry
    · simp at heq
    · obtain ⟨d, hd, heq⟩ := List.mem_map.mp hentry
      have hname : documentName d.1 = documentName v ∧ d.2 = text := by simpa using heq
      rw [← documentName_injective hname.1, ← hname.2]
      exact hd

theorem changelog_reports_successions_gap :
    let o : ChangelogOptions := ⟨"in", "in", {}⟩
    brokenReleases.WellFormed ∧ brokenReleases.resolve o.input = .ok ["in"] ∧
      brokenReleases.at? ["in"] = some none ∧
      brokenReleases.makeDirectories o.output = (brokenReleases, .ok ()) ∧
      (∀ u v s s', Stored brokenReleases ["in"] u s → Stored brokenReleases ["in"] v s' →
        compareTexts u v = .eq → u = v) ∧
      Successive brokenReleases ["in"] "1.0.0" "1.2.0" [] [.property "x" "int"] ∧
      ∃ out ds t₂, (changelog (m := StateM FileTree) o).run.run brokenReleases = (.ok ds, t₂) ∧
        FileTree.DirectoryAt brokenReleases o.output out ∧
        FileTree.Grows brokenReleases brokenReleases ∧
        ReportsSuccessions o brokenReleases ["in"] brokenReleases out t₂ ∧
        TellsFailures o brokenReleases ["in"] brokenReleases out ds := by
  have hdistinct : ∀ u v s s', Stored brokenReleases ["in"] u s →
      Stored brokenReleases ["in"] v s' → compareTexts u v = .eq → u = v := by
    rintro u v s s' ⟨text, hu, -⟩ ⟨text', hv, -⟩ heq
    have hall : ∀ d ∈ brokenDocuments, ∀ d' ∈ brokenDocuments,
        compareTexts d.1 d'.1 = .eq → d.1 = d'.1 := by decide
    exact hall _ (mem_brokenDocuments hu) _ (mem_brokenDocuments hv) heq
  have hsuccessive :
      Successive brokenReleases ["in"] "1.0.0" "1.2.0" [] [.property "x" "int"] := by
    refine ⟨⟨_, ⟨⟨by decide, by decide⟩, rfl⟩, by cbv⟩, ⟨_, ⟨⟨by decide, by decide⟩, rfl⟩, by cbv⟩,
      by decide, ?_⟩
    rintro w r ⟨text, hw, hdecode⟩ hbetween
    have hall : ∀ d ∈ brokenDocuments,
        compareTexts "1.0.0" d.1 = .lt ∧ compareTexts d.1 "1.2.0" = .lt → d.2 = "[" := by decide
    have hbroken : text = "[" := hall _ (mem_brokenDocuments hw) hbetween
    have hrefused : Structure.decode "[" = .error (.text .truncated) := by cbv
    rw [hbroken, hrefused] at hdecode
    cases hdecode
  exact ⟨wellFormed_brokenReleases, by rfl, by decide, by rfl, hdistinct, hsuccessive,
    changelog_reports_successions _ brokenReleases brokenReleases ["in"] wellFormed_brokenReleases
      (by rfl) (by decide) (by rfl) hdistinct⟩

end ApiSurface.CommandLine
