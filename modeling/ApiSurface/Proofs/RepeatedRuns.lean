import Mathlib
import ApiSurface.Proofs.Journals
import ApiSurface.Proofs.RunEffects

/-! Changelogs that are made twice. The reports of a run are no documents, wherever they are
written, so they change neither what there is to read nor where there is a place to write. A second
run reads the same documents and writes the same reports over the first ones. -/
namespace ApiSurface.CommandLine

open FileTree (DirectoryAt Distinct Keeps)
open Report (Format)

/-! Reports among documents. -/

/-- No report is taken for a release, whatever version it is on. -/
theorem isRelease_join_fileName (p : Path) {v : String} (h : '/' ∉ v.toList) (f : Format) :
    isRelease (Path.join p (f.fileName v)) = false := by
  rw [← Bool.not_eq_true, isRelease_join p (isName_fileName (isName_documentName.mpr h) f)]
  rintro ⟨u, hu, heq⟩
  exact fileName_ne_documentName f v hu heq

/-- No report is taken for the settings. -/
theorem fileName_ne_settings (f : Format) (v : String) : f.fileName v ≠ Settings.fileName := by
  intro heq
  have hreport : Path.splitName (f.fileName v).toList =
      (v.toList ++ Format.stemSuffix.toList, some f.extension.toList) :=
    Path.splitName_eq_some.mpr
      ⟨toList_fileName v f, by simp [Format.stemSuffix], by cases f <;> decide⟩
  have hsettings : Path.splitName Settings.fileName.toList =
      ("dts-etch".toList, some "toml".toList) := by decide
  rw [heq, hsettings] at hreport
  cases f <;> simp [Format.extension] at hreport

theorem releases_eq_of_filter {p : Path} {names names' : List String}
    (h : names.filter (fun n => isRelease (Path.join p n)) =
      names'.filter fun n => isRelease (Path.join p n)) :
    releases p names = releases p names' := by
  have hfilter (names : List String) : (names.map (Path.join p ·)).filter isRelease =
      (names.filter fun n => isRelease (Path.join p n)).map (Path.join p ·) := List.filter_map
  rw [releases, releases, hfilter, hfilter, h]

section Reports

variable {o : ChangelogOptions} {dir out : List String}
  (pairs : List ((String × Structure) × (String × Structure))) {t : FileTree}

theorem keeps_foldl_withReport (t : FileTree) : Keeps t (pairs.foldl (withReport o out) t) :=
  List.foldlRecOn pairs (withReport o out) (motive := Keeps t) (.refl t)
    fun t' ht' pair _ => ht'.trans (keeps_withReport t' pair)

theorem isObstructed_foldl_withReport (t : FileTree) (v : String) :
    isObstructed o out (pairs.foldl (withReport o out) t) v = isObstructed o out t v :=
  List.foldlRecOn pairs (withReport o out)
    (motive := fun t' => isObstructed o out t' v = isObstructed o out t v) rfl
    fun t' ht' pair _ => (isObstructed_withReport t' pair v).trans ht'

theorem ready_foldl_withReport {docs : List (String × String)} (h : Ready o dir out t docs) :
    Ready o dir out (pairs.foldl (withReport o out) t) docs :=
  List.foldlRecOn pairs (withReport o out) (motive := (Ready o dir out · docs)) h
    fun _ ht' pair _ => ht'.withReport pair

theorem distinct_withReport (h : t.Distinct) (pair : (String × Structure) × (String × Structure)) :
    (withReport o out t pair).Distinct := by
  rw [withReport]
  split_ifs
  · exact h
  · exact h.put _ _

theorem distinct_foldl_withReport (h : t.Distinct) :
    (pairs.foldl (withReport o out) t).Distinct :=
  List.foldlRecOn pairs (withReport o out) (motive := Distinct) h
    fun _ ht' pair _ => distinct_withReport ht' pair

theorem at?_settings_foldl_withReport (t : FileTree) :
    (pairs.foldl (withReport o out) t).at? [Settings.fileName] = t.at? [Settings.fileName] := by
  refine at?_foldl_withReport_of_ne pairs fun pair _ heq => ?_
  have hlast := congrArg List.getLast? heq
  rw [reportPlace, List.getLast?_concat] at hlast
  exact absurd (Option.some.inj hlast).symm (fileName_ne_settings o.report.format pair.2.1)

/-- Reports are no releases of any directory. -/
theorem releases_foldl_withReport (hpairs : ∀ pair ∈ pairs, '/' ∉ pair.2.1.toList) (t : FileTree)
    (p : Path) :
    releases p ((pairs.foldl (withReport o out) t).namesIn dir) = releases p (t.namesIn dir) := by
  refine List.foldlRecOn pairs (withReport o out)
    (motive := fun t' => releases p (t'.namesIn dir) = releases p (t.namesIn dir)) rfl
    fun t' ht' pair hpair => ?_
  refine Eq.trans ?_ ht'
  rw [withReport]
  split_ifs
  · rfl
  · refine releases_eq_of_filter (FileTree.filter_namesIn_put (by simp) ?_ dir)
    intro _ n hn
    obtain rfl : n = o.report.format.fileName pair.2.1 := by simpa [reportPlace] using hn.symm
    exact isRelease_join_fileName p (hpairs pair hpair) o.report.format

variable {pairs}

/-- Reports that are there are not changed by writing them again. -/
theorem foldl_withReport_again (hd : (pairs.map (·.2.1)).Nodup) (ht : t.Distinct) :
    pairs.foldl (withReport o out) (pairs.foldl (withReport o out) t) =
      pairs.foldl (withReport o out) t := by
  refine List.foldlRecOn pairs (withReport o out)
    (motive := (· = pairs.foldl (withReport o out) t)) rfl fun t' ht' pair hpair => ?_
  rw [ht', withReport]
  cases hplace : isObstructed o out (pairs.foldl (withReport o out) t) pair.2.1 with
  | true => rfl
  | false =>
    rw [isObstructed_foldl_withReport] at hplace
    rw [if_neg (by simp)]
    exact (distinct_foldl_withReport pairs ht).put_self (by simp [reportPlace])
      (at?_foldl_withReport_of_mem hd hpair hplace)

end Reports

/-! Steps with a journal. -/

/-- The accesses of a run for one document. -/
inductive DocumentAccess (o : ChangelogOptions) (v text : String) : Access → Prop
  | read : DocumentAccess o v text (.read (release o.input v).path (.ok text))
  | write (content : String) (result : Except FileFault Unit) :
      DocumentAccess o v text
        (.write (Path.join o.output (o.report.format.fileName v)) content result)

theorem load_journal {t : FileTree} {path : Path} {text : String} (h : t.read path = .ok text)
    (log : List Access) :
    load (m := StateM Journal) path ⟨t, log⟩ =
      ((Structure.decode text).mapError (.decoding path),
        ⟨t, log ++ [.read path (.ok text)]⟩) := by
  have hread : Files.read (m := StateM Journal) path ⟨t, log⟩ =
      (.ok text, ⟨t, log ++ [.read path (.ok text)]⟩) :=
    Journal.act_run ((read_run t path).trans (by rw [h])) _ log
  rw [load, bind_run hread]
  rfl

section Steps

variable (o : ChangelogOptions) (dir out : List String)

/-- What is done for a document depends on its text, on what was read before, and on whether there
is a place for its report. -/
theorem addRelease_journal (p : Progress) {v : String} (text : String) (obstructed : Bool)
    (hn : Path.IsName (documentName v)) :
    ∃ (p' : Progress) (made : List Access), (∀ a ∈ made, DocumentAccess o v text a) ∧
      (∀ docs, compared p.previous ((v, text) :: docs) =
        compared p.previous [(v, text)] ++ compared p'.previous docs) ∧
      ∀ t log, t.read (release o.input v).path = .ok text → DirectoryAt t o.output out →
        isObstructed o out t v = obstructed →
        addRelease (m := StateM Journal) o p (release o.input v) ⟨t, log⟩ =
          (p', ⟨(compared p.previous [(v, text)]).foldl (withReport o out) t, log ++ made⟩) := by
  have hread : ∀ a ∈ [Access.read (release o.input v).path (.ok text)],
      DocumentAccess o v text a := List.forall_mem_singleton.mpr .read
  cases hdecode : Structure.decode text with
  | error fault =>
    refine ⟨⟨p.previous, p.diagnostics ++ [refusal o v fault]⟩, _, hread, fun docs => ?_,
      fun t log ht _ _ => ?_⟩
    · rw [compared_cons_error docs _ hdecode, compared_cons_error [] _ hdecode, compared_nil,
        List.nil_append]
    · rw [compared_cons_error [] _ hdecode, compared_nil, addRelease,
        bind_run (load_journal ht log), hdecode]
      rfl
  | ok s =>
    cases hp : p.previous with
    | none =>
      refine ⟨⟨some (v, s), p.diagnostics⟩, _, hread, fun docs => ?_, fun t log ht _ _ => ?_⟩
      · rw [compared_none_cons_ok docs hdecode, compared_none_cons_ok [] hdecode, compared_nil,
          List.nil_append]
      · rw [compared_none_cons_ok [] hdecode, compared_nil, addRelease,
          bind_run (load_journal ht log), hdecode]
        simp only [Except.mapError, hp]
        rfl
    | some old =>
      let content := releaseReport o.report old (v, s)
      let result : Except FileFault Unit := if obstructed then .error .isDirectory else .ok ()
      let write := Access.write (Path.join o.output (o.report.format.fileName v)) content result
      refine ⟨⟨some (v, s), p.diagnostics ++ if obstructed then [obstruction o v] else []⟩,
        [.read (release o.input v).path (.ok text), write], ?_, fun docs => ?_,
        fun t log ht hout hplace => ?_⟩
      · exact List.forall_mem_cons.mpr
          ⟨.read, List.forall_mem_singleton.mpr (.write content result)⟩
      · rw [compared_some_cons_ok docs old hdecode, compared_some_cons_ok [] old hdecode,
          compared_nil, List.singleton_append]
      · have hwrite : Files.write (m := StateM Journal)
            (Path.join o.output (o.report.format.fileName v)) content
            ⟨t, log ++ [.read (release o.input v).path (.ok text)]⟩ =
            (result, ⟨withReport o out t (old, (v, s)),
              log ++ [.read (release o.input v).path (.ok text)] ++ [write]⟩) :=
          Journal.act_run ((write_report_run hout hn old s).trans (by rw [hplace])) _ _
        rw [compared_some_cons_ok [] old hdecode, compared_nil, addRelease,
          bind_run (load_journal ht log), hdecode]
        simp only [Except.mapError, hp]
        refine (bind_run hwrite).trans ?_
        rw [List.append_assoc]
        cases obstructed with
        | true => rfl
        | false =>
          rw [if_neg (by simp), List.append_nil]
          rfl

/-- What a run does for documents depends on their texts, on what was read before, and on where
there are places for reports. -/
theorem foldlM_addRelease_journal (docs : List (String × String)) (obstructed : String → Bool)
    (hnames : ∀ d ∈ docs, Path.IsName (documentName d.1)) (p : Progress) :
    ∃ (p' : Progress) (made : List Access),
      (∀ a ∈ made, ∃ d ∈ docs, DocumentAccess o d.1 d.2 a) ∧
      ∀ t log, (docs ≠ [] → Ready o dir out t docs) →
        (∀ v, isObstructed o out t v = obstructed v) →
        (docs.map fun d => release o.input d.1).foldlM (addRelease (m := StateM Journal) o) p
            ⟨t, log⟩ =
          (p', ⟨(compared p.previous docs).foldl (withReport o out) t, log ++ made⟩) := by
  induction docs generalizing p with
  | nil =>
    refine ⟨p, [], by simp, fun t log _ _ => ?_⟩
    rw [compared_nil, List.append_nil]
    rfl
  | cons d docs ih =>
    obtain ⟨v, text⟩ := d
    obtain ⟨hname, hnames⟩ := List.forall_mem_cons.mp hnames
    obtain ⟨p₁, made₁, hmade₁, hcompared, hstep⟩ :=
      addRelease_journal o out p text (obstructed v) hname
    obtain ⟨p₂, made₂, hmade₂, hrest⟩ := ih hnames p₁
    refine ⟨p₂, made₁ ++ made₂, ?_, fun t log hready hplaces => ?_⟩
    · rintro a ha
      rcases List.mem_append.mp ha with ha | ha
      · exact ⟨(v, text), List.mem_cons_self, hmade₁ a ha⟩
      · obtain ⟨d, hd, hmade⟩ := hmade₂ a ha
        exact ⟨d, List.mem_cons_of_mem _ hd, hmade⟩
    · have hready := hready (by simp)
      have hfirst := hstep t log hready.read_head hready.output (hplaces v)
      have hlater := hrest _ (log ++ made₁)
        (fun _ => ready_foldl_withReport (compared p.previous [(v, text)]) hready.tail)
        (fun u => (isObstructed_foldl_withReport _ t u).trans (hplaces u))
      rw [List.map_cons, List.foldlM_cons, bind_run hfirst, hlater, hcompared docs,
        List.foldl_append, List.append_assoc]

end Steps

/-! The settings. -/

/-- The access to the settings file, if there is one. -/
def settingsAccess : Option String → List Access
  | none => []
  | some text => [.read Settings.fileName (.ok text)]

theorem loadSettings_journal (t : FileTree) (log : List Access) :
    loadSettings (m := StateM Journal) ⟨t, log⟩ =
      (settingsIn (settingsText t), ⟨t, log ++ settingsAccess (settingsText t)⟩) := by
  have hfile : Files.isFile (m := StateM Journal) Settings.fileName ⟨t, log⟩ =
      ((settingsText t).isSome, ⟨t, log⟩) := Journal.act_run_silent (isFile_settings t) log
  rw [loadSettings, bind_run hfile]
  cases htext : settingsText t with
  | none =>
    rw [settingsAccess, List.append_nil]
    rfl
  | some text =>
    have hread : Files.read (m := StateM Journal) Settings.fileName ⟨t, log⟩ =
        (.ok text, ⟨t, log ++ [.read Settings.fileName (.ok text)]⟩) :=
      Journal.act_run ((read_run t _).trans (by rw [read_settings htext])) _ log
    rw [if_pos Option.isSome_some, bind_run hread]
    rfl

/-! Whole runs. -/

theorem changelog_journal {o : ChangelogOptions} {t t₁ : FileTree} {names : List String}
    {log : List Access} {p : Progress} {j : Journal} (hlist : t.list o.input = .ok names)
    (hmake : t.makeDirectories o.output = (t₁, .ok ()))
    (hrun : (releases o.input names).foldlM (addRelease (m := StateM Journal) o)
      ⟨none, countWarning o.input (releases o.input names).length⟩ ⟨t₁, log⟩ = (p, j)) :
    (changelog (m := StateM Journal) o).run.run ⟨t, log⟩ = (.ok p.diagnostics, j) := by
  have hlisted : Files.list (m := StateM Journal) o.input ⟨t, log⟩ = (.ok names, ⟨t, log⟩) :=
    Journal.act_run_silent ((list_run t o.input).trans (by rw [hlist])) log
  have hmade : Files.makeDirectories (m := StateM Journal) o.output ⟨t, log⟩ =
      (.ok (), ⟨t₁, log⟩) := Journal.act_run_silent (makeDirectories_run hmake) log
  exact changelog_ok hlisted hmade hrun

/-- What a run finds in a tree before it reads the first document, and what it makes of the tree
until then. -/
structure Planned (settings : Option String) (o : ChangelogOptions) (dir out : List String)
    (docs : List (String × String)) (obstructed : String → Bool) (t t₁ : FileTree) : Prop where
  settings : settingsText t = settings
  list : ∃ names, t.list o.input = .ok names ∧
    releases o.input names = docs.map fun d => release o.input d.1
  made : t.makeDirectories o.output = (t₁, .ok ())
  ready : docs ≠ [] → Ready o dir out t₁ docs
  places : ∀ v, isObstructed o out t₁ v = obstructed v

section Planned

variable {settings : Option String} {s : Settings} {args : List String} {o : ChangelogOptions}
  {docs : List (String × String)}

/-- A run does the same in all trees in which it finds the same. -/
theorem exists_run_of_planned (dir out : List String) (obstructed : String → Bool)
    (hsettings : settingsIn settings = .ok s)
    (hoptions : ChangelogOptions.parse s args = .ok o)
    (hnames : ∀ d ∈ docs, Path.IsName (documentName d.1)) :
    ∃ (outcome : Outcome) (made : List Access),
      (∀ a ∈ made, ∃ d ∈ docs, DocumentAccess o d.1 d.2 a) ∧
      ∀ t t₁, Planned settings o dir out docs obstructed t t₁ →
        run (m := StateM Journal) ("changelog" :: args) ⟨t, []⟩ =
          (outcome, ⟨(compared none docs).foldl (withReport o out) t₁,
            settingsAccess settings ++ made⟩) := by
  obtain ⟨p, made, hmade, hsteps⟩ := foldlM_addRelease_journal o dir out docs obstructed hnames
    ⟨none, countWarning o.input docs.length⟩
  refine ⟨{ messages := Diagnostic.lines p.diagnostics }, made, hmade, fun t t₁ h => ?_⟩
  obtain ⟨names, hlist, hreleases⟩ := h.list
  have hlength : (releases o.input names).length = docs.length := by
    rw [hreleases, List.length_map]
  have hloaded : loadSettings (m := StateM Journal) ⟨t, []⟩ =
      (.ok s, ⟨t, settingsAccess settings⟩) := by
    rw [loadSettings_journal, h.settings, hsettings, List.nil_append]
  have hrun := hsteps t₁ (settingsAccess settings) h.ready h.places
  rw [← hreleases, ← hlength] at hrun
  rw [run_changelog hloaded hoptions]
  exact told_ok (changelog_journal hlist h.made hrun)

/-- A run leaves a tree in which the next one finds what it found. -/
theorem Planned.again {dir out : List String} {obstructed : String → Bool} {t t₁ : FileTree}
    (h : Planned settings o dir out docs obstructed t t₁)
    (hinput : t.resolve o.input = .ok dir) (hout : DirectoryAt t₁ o.output out)
    (hnames : ∀ d ∈ docs, Path.IsName (documentName d.1)) :
    Planned settings o dir out docs obstructed
      ((compared none docs).foldl (withReport o out) t₁)
      ((compared none docs).foldl (withReport o out) t₁) := by
  have hgrows : FileTree.Grows t t₁ := by
    have hmade := FileTree.made_makeDirectories t o.output
    rw [h.made] at hmade
    exact hmade.1
  have hkeeps : Keeps t₁ ((compared none docs).foldl (withReport o out) t₁) :=
    keeps_foldl_withReport (compared none docs) t₁
  constructor
  · rw [settingsText, at?_settings_foldl_withReport, hgrows.join_at?]
    exact h.settings
  · obtain ⟨names, hlist, hreleases⟩ := h.list
    rw [FileTree.list_eq_namesIn hinput] at hlist
    obtain rfl := Except.ok.inj hlist
    refine ⟨_, FileTree.list_eq_namesIn
      (FileTree.resolve_of_keeps (hgrows.keeps.trans hkeeps) hinput), ?_⟩
    rw [releases_foldl_withReport, ← hreleases]
    · have hlisted := FileTree.filter_namesIn_makeDirectories t o.output
        (fun n => isRelease (Path.join o.input n)) dir
      rw [h.made] at hlisted
      exact releases_eq_of_filter hlisted
    · intro pair hpair
      obtain ⟨d, hd, hversion⟩ := List.mem_map.mp (mem_of_mem_compared hpair)
      exact hversion ▸ isName_documentName.mp (hnames d hd)
  · exact (hout.of_keeps hkeeps).makeDirectories
  · exact fun hne => ready_foldl_withReport _ (h.ready hne)
  · exact fun v => (isObstructed_foldl_withReport _ t₁ v).trans (h.places v)

end Planned

section Accesses

variable {settings : Option String} {o : ChangelogOptions} {docs : List (String × String)}
  {made : List Access} (hmade : ∀ a ∈ made, ∃ d ∈ docs, DocumentAccess o d.1 d.2 a)
include hmade

theorem eq_of_read_mem {path : Path} {result : Except FileFault String}
    (h : Access.read path result ∈ settingsAccess settings ++ made) :
    (∃ text, settings = some text ∧ path = Settings.fileName ∧ result = .ok text) ∨
      ∃ d ∈ docs, path = (release o.input d.1).path ∧ result = .ok d.2 := by
  rcases List.mem_append.mp h with h | h
  · cases settings with
    | none => cases h
    | some text =>
      obtain ⟨rfl, rfl⟩ := Access.read.inj (List.mem_singleton.mp h)
      exact .inl ⟨text, rfl, rfl, rfl⟩
  · obtain ⟨d, hd, haccess⟩ := hmade _ h
    cases haccess
    exact .inr ⟨d, hd, rfl, rfl⟩

theorem eq_of_write_mem {path : Path} {content : String} {result : Except FileFault Unit}
    (h : Access.write path content result ∈ settingsAccess settings ++ made) :
    ∃ d ∈ docs, path = Path.join o.output (o.report.format.fileName d.1) := by
  rcases List.mem_append.mp h with h | h
  · cases settings with
    | none => cases h
    | some text => cases List.mem_singleton.mp h
  · obtain ⟨d, hd, haccess⟩ := hmade _ h
    cases haccess
    exact ⟨d, hd, rfl⟩

end Accesses

/-- A run that succeeds has read its settings, its options and the names in its directory, and has
a directory for its reports. -/
theorem exists_of_status {args : List String} {t t₂ : FileTree} {outcome : Outcome}
    (h : run (m := StateM FileTree) ("changelog" :: args) t = (outcome, t₂))
    (hstatus : outcome.status = 0) :
    ∃ s o names t₁, settingsIn (settingsText t) = .ok s ∧
      ChangelogOptions.parse s args = .ok o ∧ t.list o.input = .ok names ∧
      t.makeDirectories o.output = (t₁, .ok ()) := by
  have hsettings := loadSettings_run t
  cases hloaded : settingsIn (settingsText t) with
  | error failure =>
    rw [run, bind_run hsettings, hloaded] at h
    obtain ⟨rfl, -⟩ := Prod.mk.inj h
    cases hstatus
  | ok s =>
    rw [hloaded] at hsettings
    cases hoptions : ChangelogOptions.parse s args with
    | error fault =>
      rw [run, bind_run hsettings] at h
      simp only [dispatch, hoptions] at h
      obtain ⟨rfl, -⟩ := Prod.mk.inj h
      cases hstatus
    | ok o =>
      generalize hrun : (changelog (m := StateM FileTree) o).run.run t = r
      obtain hlist | ⟨hlist, hmake⟩ | ⟨hlist, hmake, hsteps⟩ := hrun ▸ course_changelog o t
      · rw [run_changelog hsettings hoptions, told_error hrun] at h
        obtain ⟨rfl, -⟩ := Prod.mk.inj h
        cases hstatus
      · rw [run_changelog hsettings hoptions, told_error hrun] at h
        obtain ⟨rfl, -⟩ := Prod.mk.inj h
        cases hstatus
      · exact ⟨s, o, _, _, rfl, hoptions, hlist, hmake⟩

/-- What a run finds, when the names in its directory can be read and the other one can be made. -/
theorem exists_planned {o : ChangelogOptions} {t t₁ : FileTree} {names : List String}
    (ht : t.Rooted) (hlist : t.list o.input = .ok names)
    (hmake : t.makeDirectories o.output = (t₁, .ok ())) :
    ∃ (dir out : List String) (docs : List (String × String)), t.resolve o.input = .ok dir ∧
      DirectoryAt t₁ o.output out ∧ (docs.map Prod.fst).Nodup ∧
      (∀ v text, (v, text) ∈ docs ↔ VersionFile t dir v text) ∧
      (∀ d ∈ docs, Path.IsName (documentName d.1)) ∧
      Planned (settingsText t) o dir out docs (isObstructed o out t₁) t t₁ := by
  obtain ⟨dir, hresolve, -⟩ := FileTree.exists_namesIn_of_list hlist
  obtain ⟨names, docs, hlist, hreleases, hd, -, hdocs, hnames⟩ :=
    exists_documents ht.toWellFormed hresolve
  obtain ⟨hgrows, hdirectory⟩ : FileTree.Made t o.output (t₁, .ok ()) :=
    hmake ▸ FileTree.made_makeDirectories t o.output
  obtain ⟨out, hout⟩ := hdirectory rfl
  refine ⟨dir, out, docs, hresolve, hout, hd, hdocs, hnames, rfl, ⟨names, hlist, hreleases⟩, hmake,
    fun hne => ?_, fun _ => rfl⟩
  -- a file has no documents in it, so there is nothing to be read then
  obtain ⟨first, hfirst⟩ := List.exists_mem_of_ne_nil docs hne
  have hinput : DirectoryAt t o.input dir := FileTree.directoryAt_of_resolve hresolve
    (ht.at?_of_inside ((hdocs first.1 first.2).mp hfirst).stands)
  exact
    { input := hinput.of_keeps hgrows.keeps
      output := hout
      version := fun d hmem => ((hdocs d.1 d.2).mp hmem).version
      name := hnames
      text := fun d hmem => (hgrows.at?_eq_some_some _ _).mpr ((hdocs d.1 d.2).mp hmem).stands }

/-- A run that does the same when it is made again, in the tree that it leaves. It keeps the files
that it reads, which are the settings and releases, and writes reports. -/
structure Repeatable (args : List String) (t : FileTree) (outcome : Outcome) (t₂ : FileTree) :
    Prop where
  again : run (m := StateM FileTree) args t₂ = (outcome, t₂)
  same : accesses args t₂ = accesses args t
  kept : ∀ path result, .read path result ∈ accesses args t →
    t.read path = result ∧ t₂.read path = result
  reads : ∀ path result, .read path result ∈ accesses args t →
    path = Settings.fileName ∨ isRelease path
  writes : ∀ path content result, .write path content result ∈ accesses args t →
    ∃ directory v f, '/' ∉ v.toList ∧ path = Path.join directory (Format.fileName v f)

/-- A changelog that succeeds may be made again: it reads the same documents, writes the same
reports and changes no file. No report is taken for a release, whatever the versions are. -/
theorem changelog_repeatable (args : List String) {t t₂ : FileTree} (ht : t.Rooted)
    {outcome : Outcome}
    (h : run (m := StateM FileTree) ("changelog" :: args) t = (outcome, t₂))
    (hstatus : outcome.status = 0) :
    Repeatable ("changelog" :: args) t outcome t₂ ∧
      ∀ (directory : Path) (v : String) (f : Format), '/' ∉ v.toList →
        isRelease (Path.join directory (f.fileName v)) = false := by
  obtain ⟨s, o, names, t₁, hsettings, hoptions, hlist, hmake⟩ := exists_of_status h hstatus
  obtain ⟨dir, out, docs, hresolve, hout, hd, hdocs, hnames, hplanned⟩ :=
    exists_planned ht hlist hmake
  have hagain := hplanned.again hresolve hout hnames
  obtain ⟨outcome', made, hmade, hruns⟩ :=
    exists_run_of_planned dir out (isObstructed o out t₁) hsettings hoptions hnames
  have hfirst := hruns t t₁ hplanned
  have hsecond := hruns _ _ hagain
  have hdistinct : t₁.Distinct := by
    have hkept := FileTree.Distinct.makeDirectories (t := t) ht.distinct o.output
    rwa [hmake] at hkept
  rw [foldl_withReport_again (nodup_compared hd) hdistinct] at hsecond
  have hmirror := Journal.run_eq ("changelog" :: args) ⟨t, []⟩
  rw [hfirst] at hmirror
  obtain ⟨rfl, rfl⟩ := Prod.mk.inj (h.symm.trans hmirror)
  have haccesses : accesses ("changelog" :: args) t = settingsAccess (settingsText t) ++ made := by
    rw [accesses, hfirst]
  refine ⟨⟨?_, ?_, ?_, ?_, ?_⟩, fun directory v f hv => isRelease_join_fileName directory hv f⟩
  · have hmirror := Journal.run_eq ("changelog" :: args)
      ⟨(compared none docs).foldl (withReport o out) t₁, []⟩
    rw [hsecond] at hmirror
    exact hmirror
  · rw [haccesses, accesses, hsecond]
  · intro path result hread
    rw [haccesses] at hread
    rcases eq_of_read_mem hmade hread with ⟨text, htext, rfl, rfl⟩ | ⟨d, hmem, rfl, rfl⟩
    · exact ⟨read_settings htext, read_settings (hagain.settings.trans htext)⟩
    · have hstands := ((hdocs d.1 d.2).mp hmem).stands
      have hinput := FileTree.directoryAt_of_resolve hresolve (ht.at?_of_inside hstands)
      have hlater := hagain.ready (List.ne_nil_of_mem hmem)
      exact ⟨FileTree.read_join hinput (hnames d hmem) hstands,
        FileTree.read_join hlater.input (hnames d hmem) (hlater.text d hmem)⟩
  · intro path result hread
    rw [haccesses] at hread
    rcases eq_of_read_mem hmade hread with ⟨text, -, rfl, -⟩ | ⟨d, hmem, rfl, -⟩
    · exact .inl rfl
    · have hversion := ((hdocs d.1 d.2).mp hmem).version
      exact .inr ((isRelease_join o.input (hnames d hmem)).mpr ⟨d.1, hversion, rfl⟩)
  · intro path content result hwrite
    rw [haccesses] at hwrite
    obtain ⟨d, hmem, rfl⟩ := eq_of_write_mem hmade hwrite
    exact ⟨o.output, d.1, o.report.format, isName_documentName.mp (hnames d hmem), rfl⟩

theorem changelog_repeatable_brokenReleases :
    brokenReleases.Rooted ∧
    (let args := ["changelog", "in", "-o", "in"]
     let r := run (m := StateM FileTree) args brokenReleases
     r.1.status = 0 ∧ Repeatable args brokenReleases r.1 r.2) := by
  have hrooted : brokenReleases.Rooted := by decide
  exact ⟨hrooted, status_brokenReleases,
    (changelog_repeatable _ hrooted (Prod.eta _).symm status_brokenReleases).1⟩

end ApiSurface.CommandLine
