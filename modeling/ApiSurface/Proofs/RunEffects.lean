import Mathlib
import ApiSurface.CommandLine
import ApiSurface.Proofs.Successions
import ApiSurface.Proofs.TreeUpdates

/-! What a run does to the files of a tree. A run that fails shows nothing and leaves every file as
it is; at most it has made a directory for an output that cannot be written then. A run that
succeeds writes the file that `extract` is to store, or reports on versions, and no other one. -/
namespace ApiSurface

namespace FileTree

/-! Changes of a tree. -/

/-- Files come and change in some places only, where they stand then. New directories may come
anywhere. -/
def WritesOnly (places : List String → Prop) (t t₂ : FileTree) : Prop :=
  ∀ q, (t₂.at? q = t.at? q ∨ t.at? q = none ∧ t₂.at? q = some none) ∨
    places q ∧ ∃ content, t₂.at? q = some (some content)

theorem Grows.writesOnly {t t₂ : FileTree} (h : Grows t t₂) (places : List String → Prop) :
    WritesOnly places t t₂ := fun q => .inl (h q)

namespace WritesOnly

variable {places : List String → Prop} {t t₁ t₂ : FileTree}

theorem mono {places' : List String → Prop} (h : WritesOnly places t t₂)
    (hle : ∀ q, places q → places' q) : WritesOnly places' t t₂ := by
  intro q
  exact (h q).imp_right fun ⟨hq, hfile⟩ => ⟨hle q hq, hfile⟩

theorem trans (h : WritesOnly places t t₁) (h' : WritesOnly places t₁ t₂) :
    WritesOnly places t t₂ := by
  intro q
  rcases h' q with (hq | ⟨hnone, hdirectory⟩) | hwritten
  · rw [hq]
    exact h q
  · rcases h q with (hq | ⟨-, hdirectory'⟩) | ⟨-, content, hfile⟩
    · exact .inl (.inr ⟨hq ▸ hnone, hdirectory⟩)
    · rw [hnone] at hdirectory'
      cases hdirectory'
    · rw [hnone] at hfile
      cases hfile
  · exact .inr hwritten

end WritesOnly

theorem writesOnly_put {t : FileTree} {place : List String} (h : t.at? place ≠ some none)
    (content : String) : WritesOnly (· = place) t (t.put place (some content)) := by
  intro q
  rw [at?_put t (ne_nil_of_at? h)]
  split_ifs with hq
  · exact .inr ⟨hq, content, rfl⟩
  · exact .inl (.inl rfl)

end FileTree

namespace CommandLine

open FileTree (Grows Keeps WritesOnly DirectoryAt)

/-! Commands that read. -/

/-- The settings in the text of their file, if there is one. -/
def settingsIn : Option String → Except Failure Settings
  | none => .ok {}
  | some text => ((Settings.parse? text).map Except.ok).getD (.error .settings)

/-- The text of the settings file of a tree. -/
def settingsText (t : FileTree) : Option String := (t.at? [Settings.fileName]).join

theorem read_settings {t : FileTree} {text : String} (h : settingsText t = some text) :
    t.read Settings.fileName = .ok text := by
  refine FileTree.read_name (by decide) ?_
  rwa [settingsText, Option.join_eq_some_iff] at h

theorem isFile_settings (t : FileTree) :
    Files.isFile (m := StateM FileTree) Settings.fileName t = ((settingsText t).isSome, t) :=
  Prod.ext (FileTree.isFile_name (by decide) t) rfl

theorem loadSettings_run (t : FileTree) :
    loadSettings (m := StateM FileTree) t = (settingsIn (settingsText t), t) := by
  rw [loadSettings, bind_run (isFile_settings t)]
  cases htext : settingsText t with
  | none => rfl
  | some text =>
    rw [if_pos Option.isSome_some, bind_run (read_run t Settings.fileName), read_settings htext]
    rfl

theorem exists_load_run (path : Path) (t : FileTree) :
    ∃ r, load (m := StateM FileTree) path t = (r, t) := by
  refine ⟨_, Prod.ext rfl ?_⟩
  rw [load, bind_run (read_run t path)]
  cases t.read path <;> rfl

theorem exists_extractFile_run (path : Path) (t : FileTree) :
    ∃ r, extractFile (m := StateM FileTree) path t = (r, t) := by
  refine ⟨_, Prod.ext rfl ?_⟩
  rw [extractFile, bind_run (read_run t path)]
  cases t.read path <;> rfl

/-- A command goes on behind a step that may fail. -/
theorem mk_bind_run {α β : Type} {x : StateM FileTree (Except Failure α)}
    {f : α → ExceptT Failure (StateM FileTree) β} {t t' : FileTree} {r : Except Failure α}
    (h : x t = (r, t')) :
    (ExceptT.mk x >>= f).run.run t = (ExceptT.bindCont f r : StateM FileTree _) t' :=
  bind_run (f := ExceptT.bindCont f) h

/-! Effects of commands. -/

/-- A command that leaves the files alone when it fails, and writes only in some places else. -/
def Confined {α : Type} (places : FileTree → List String → Prop) (t : FileTree) :
    Except Failure α × FileTree → Prop
  | (.error _, t₂) => Grows t t₂
  | (.ok _, t₂) => WritesOnly (places t₂) t t₂

namespace Confined

variable {α β : Type} {places : FileTree → List String → Prop} {t t₁ : FileTree}

theorem of_grows (h : Grows t t₁) {r : Except Failure α × FileTree} (hr : Confined places t₁ r) :
    Confined places t r := by
  obtain ⟨_ | _, t₂⟩ := r
  · exact h.trans hr
  · exact (h.writesOnly _).trans hr

theorem mono {places' : FileTree → List String → Prop} {r : Except Failure α × FileTree}
    (h : Confined places t r) (hle : ∀ t₂ q, places t₂ q → places' t₂ q) :
    Confined places' t r := by
  obtain ⟨_ | _, t₂⟩ := r
  · exact h
  · exact WritesOnly.mono h (hle t₂)

/-- A step that writes no file, before the rest. -/
theorem mk_bind {x : StateM FileTree (Except Failure α)}
    {f : α → ExceptT Failure (StateM FileTree) β} {r : Except Failure α} (h : x t = (r, t₁))
    (hgrows : Grows t t₁) (hrest : ∀ a, Confined places t₁ ((f a).run.run t₁)) :
    Confined places t ((ExceptT.mk x >>= f).run.run t) := by
  rw [mk_bind_run h]
  cases r with
  | error failure => exact hgrows
  | ok a => exact .of_grows hgrows (hrest a)

end Confined

/-- Options that cannot be read stop a command before it starts. -/
theorem confined_checked {α β : Type} {places : FileTree → List String → Prop} {t : FileTree}
    {r : Except OptionFault α} {f : α → ExceptT Failure (StateM FileTree) β}
    (h : ∀ o, r = .ok o → Confined places t ((f o).run.run t)) :
    Confined places t ((checked r >>= f).run.run t) := by
  cases r with
  | error fault => exact Grows.refl t
  | ok o => exact h o rfl

theorem prepare_grows (output : Path) (t : FileTree) :
    Grows t (prepare (m := StateM FileTree) output t).2 := by
  unfold prepare
  cases Path.parent? output with
  | none => exact .refl t
  | some directory =>
    by_cases hempty : directory = ""
    · subst hempty
      exact .refl t
    · simp only
      exact (FileTree.made_makeDirectories t directory).1

/-- The file is written where its path leads to then. -/
theorem confined_store (p : Path) (text : String) (t : FileTree) :
    Confined (fun t₂ q => t₂.resolve p = .ok q) t
      ((do
        ExceptT.mk do return (← Files.write p text).mapError (Failure.writing p)
        return "" : ExceptT Failure (StateM FileTree) String).run.run t) := by
  cases hwrite : t.write p text with
  | error fault =>
    have hrun : Files.write (m := StateM FileTree) p text t = (.error fault, t) := by
      rw [write_run, hwrite]
    exact .mk_bind (bind_run hrun) (.refl t) fun _ => (Grows.refl t).writesOnly _
  | ok t₂ =>
    obtain ⟨place, rfl, hfree, hleads⟩ := FileTree.write_eq_ok hwrite
    have hrun : (do return (← Files.write p text).mapError (Failure.writing p) :
        StateM FileTree (Except Failure Unit)) t = (.ok (), t.put place (some text)) := by
      rw [bind_run (write_run t p text), hwrite]
      rfl
    rw [mk_bind_run hrun]
    exact (FileTree.writesOnly_put hfree _).mono fun q hq => hq ▸ hleads

/-- The structure is stored in one file, when all else has gone well. -/
theorem confined_extract (o : ExtractOptions) (t : FileTree) :
    Confined (fun t₂ q => ∃ p, o.output = some p ∧ t₂.resolve p = .ok q) t
      ((extract (m := StateM FileTree) o).run.run t) := by
  obtain ⟨r, hread⟩ := exists_extractFile_run o.input t
  refine .mk_bind hread (.refl t) fun structure' => ?_
  cases o.output with
  | none => exact (Grows.refl t).writesOnly _
  | some p =>
    refine .mk_bind (Prod.eta _).symm (prepare_grows p t) fun _ => ?_
    generalize (prepare (m := StateM FileTree) p t).2 = t₁
    exact (confined_store p (Structure.encode structure' ++ "\n") t₁).mono
      fun t₂ q hq => ⟨p, rfl, hq⟩

theorem confined_diff (o : DiffOptions) (t : FileTree) :
    Confined (fun _ _ => False) t ((diff (m := StateM FileTree) o).run.run t) := by
  obtain ⟨r, hold⟩ := exists_load_run o.old t
  obtain ⟨r', hnew⟩ := exists_load_run o.new t
  refine .mk_bind hold (.refl t) fun old => ?_
  refine .mk_bind hnew (.refl t) fun new => ?_
  exact (Grows.refl t).writesOnly _

/-! Changelogs. -/

/-- The ways a changelog can go. -/
inductive Course (o : ChangelogOptions) (t : FileTree) :
    Except Failure (List Diagnostic) × FileTree → Prop
  | unlisted {fault : FileFault} (list : t.list o.input = .error fault) :
      Course o t (.error (.listing o.input fault), t)
  | uncreated {names : List String} {fault : FileFault} {t₁ : FileTree}
      (list : t.list o.input = .ok names) (make : t.makeDirectories o.output = (t₁, .error fault)) :
      Course o t (.error (.creating o.output fault), t₁)
  | finished {names : List String} {t₁ t₂ : FileTree} {p : Progress}
      (list : t.list o.input = .ok names) (make : t.makeDirectories o.output = (t₁, .ok ()))
      (steps : (releases o.input names).foldlM (addRelease (m := StateM FileTree) o)
        ⟨none, countWarning o.input (releases o.input names).length⟩ t₁ = (p, t₂)) :
      Course o t (.ok p.diagnostics, t₂)

theorem course_changelog (o : ChangelogOptions) (t : FileTree) :
    Course o t ((changelog (m := StateM FileTree) o).run.run t) := by
  have hlisted := list_run t o.input
  cases hlist : t.list o.input with
  | error fault =>
    rw [hlist] at hlisted
    rw [changelog, lift_bind_run hlisted]
    exact .unlisted hlist
  | ok names =>
    rw [hlist] at hlisted
    rcases hmake : t.makeDirectories o.output with ⟨t₁, fault | done⟩
    · rw [changelog, lift_bind_run hlisted, lift_bind_run (makeDirectories_run hmake)]
      exact .uncreated hlist hmake
    · rcases hsteps : (releases o.input names).foldlM (addRelease (m := StateM FileTree) o)
        ⟨none, countWarning o.input (releases o.input names).length⟩ t₁ with ⟨p, t₂⟩
      rw [changelog_run hlist hmake hsteps]
      exact .finished hlist hmake hsteps

theorem writesOnly_withReport (o : ChangelogOptions) (out : List String) (t : FileTree)
    (pair : (String × Structure) × (String × Structure)) :
    WritesOnly (· = reportPlace o out pair.2.1) t (withReport o out t pair) := by
  rw [withReport]
  cases hplace : isObstructed o out t pair.2.1 with
  | true => exact (Grows.refl t).writesOnly _
  | false => exact FileTree.writesOnly_put (of_decide_eq_false hplace) _

section Reports

variable {o : ChangelogOptions} {out : List String}

/-- What is done for one version leaves the tree as it is, or puts the report on it there. -/
theorem addRelease_effect (p : Progress) {v : String} {t t₂ : FileTree} {p₂ : Progress}
    (hout : DirectoryAt t o.output out) (hn : Path.IsName (documentName v))
    (h : addRelease (m := StateM FileTree) o p (release o.input v) t = (p₂, t₂)) :
    Keeps t t₂ ∧ WritesOnly (· = reportPlace o out v) t t₂ := by
  have hunchanged : Keeps t t ∧ WritesOnly (· = reportPlace o out v) t t :=
    ⟨.refl t, (Grows.refl t).writesOnly _⟩
  obtain ⟨r, hload⟩ := exists_load_run (release o.input v).path t
  rw [addRelease, bind_run hload] at h
  cases r with
  | error failure =>
    obtain ⟨-, rfl⟩ := Prod.mk.inj h
    exact hunchanged
  | ok s =>
    cases hp : p.previous with
    | none =>
      simp only [hp] at h
      obtain ⟨-, rfl⟩ := Prod.mk.inj h
      exact hunchanged
    | some old =>
      simp only [hp] at h
      rw [release, bind_run (write_report_run hout hn old s)] at h
      -- the tree is the same whether the report has a place or is only noted
      obtain rfl : withReport o out t (old, (v, s)) = t₂ := by
        cases hplace : isObstructed o out t v with
        | true =>
          rw [hplace] at h
          exact congrArg Prod.snd h
        | false =>
          rw [hplace] at h
          exact congrArg Prod.snd h
      exact ⟨keeps_withReport t (old, (v, s)), writesOnly_withReport o out t (old, (v, s))⟩

/-- A run puts reports on versions into the directory of the reports, and writes nothing else. -/
theorem foldlM_addRelease_effect (vs : List String) {t t₂ : FileTree} {p p₂ : Progress}
    (hout : DirectoryAt t o.output out) (hnames : ∀ v ∈ vs, Path.IsName (documentName v))
    (h : (vs.map (release o.input)).foldlM (addRelease (m := StateM FileTree) o) p t = (p₂, t₂)) :
    Keeps t t₂ ∧ WritesOnly (fun q => ∃ v ∈ vs, q = reportPlace o out v) t t₂ := by
  induction vs generalizing t p with
  | nil =>
    obtain ⟨-, rfl⟩ := Prod.mk.inj h
    exact ⟨.refl t, (Grows.refl t).writesOnly _⟩
  | cons v vs ih =>
    obtain ⟨hv, hvs⟩ := List.forall_mem_cons.mp hnames
    rcases hstep : addRelease (m := StateM FileTree) o p (release o.input v) t with ⟨p₁, t₁⟩
    rw [List.map_cons, List.foldlM_cons, bind_run hstep] at h
    obtain ⟨hkeeps, hwrites⟩ := addRelease_effect p hout hv hstep
    obtain ⟨hkeeps', hwrites'⟩ := ih (hout.of_keeps hkeeps) hvs h
    refine ⟨hkeeps.trans hkeeps', (hwrites.mono ?_).trans (hwrites'.mono ?_)⟩
    · rintro q rfl
      exact ⟨v, List.mem_cons_self, rfl⟩
    · rintro q ⟨u, hu, rfl⟩
      exact ⟨u, List.mem_cons_of_mem v hu, rfl⟩

end Reports

/-- The reports are on versions that are stored in the input directory. -/
theorem confined_changelog (o : ChangelogOptions) {t : FileTree} (hw : t.WellFormed) :
    Confined (fun t₂ q => ∃ dir out v text, t.resolve o.input = .ok dir ∧
        DirectoryAt t₂ o.output out ∧ VersionFile t dir v text ∧ q = reportPlace o out v) t
      ((changelog (m := StateM FileTree) o).run.run t) := by
  generalize hrun : (changelog (m := StateM FileTree) o).run.run t = r
  obtain hlist | ⟨hlist, hmake⟩ | ⟨hlist, hmake, hsteps⟩ := hrun ▸ course_changelog o t
  · exact .refl t
  · have hmade := FileTree.made_makeDirectories t o.output
    rw [hmake] at hmade
    exact hmade.1
  · have hmade := FileTree.made_makeDirectories t o.output
    rw [hmake] at hmade
    obtain ⟨hgrows, hdirectory⟩ := hmade
    obtain ⟨out, hout⟩ := hdirectory rfl
    obtain ⟨dir, hresolve, -⟩ := FileTree.exists_namesIn_of_list hlist
    obtain ⟨names, docs, hnames, hreleases, -, -, hdocs, hname⟩ := exists_documents hw hresolve
    obtain rfl := Except.ok.inj (hlist.symm.trans hnames)
    have hvs : docs.map (fun d => release o.input d.1) =
        (docs.map Prod.fst).map (release o.input) := by
      rw [List.map_map]
      rfl
    rw [hreleases, hvs] at hsteps
    obtain ⟨hkeeps, hwrites⟩ := foldlM_addRelease_effect (docs.map Prod.fst) hout
      (List.forall_mem_map.mpr hname) hsteps
    refine (hgrows.writesOnly _).trans (hwrites.mono ?_)
    rintro q ⟨v, hv, rfl⟩
    obtain ⟨d, hd, rfl⟩ := List.mem_map.mp hv
    exact ⟨dir, out, d.1, d.2, hresolve, hout.of_keeps hkeeps, (hdocs d.1 d.2).mp hd, rfl⟩

/-! Runs. -/

/-- A run that shows nothing and leaves the files alone when it fails, and writes only in some
places else. -/
structure Effect (places : FileTree → List String → Prop) (t : FileTree) (r : Outcome × FileTree) :
    Prop where
  failed : r.1.status = 1 → r.1.output = "" ∧ Grows t r.2
  finished : r.1.status = 0 → WritesOnly (places r.2) t r.2

section Outcome

variable {α : Type} {places : FileTree → List String → Prop} {t : FileTree}

/-- The outcome of a command shows its failure, or is none. -/
theorem effect_bind {x : ExceptT Failure (StateM FileTree) α}
    {g : Except Failure α → StateM FileTree Outcome}
    (hfailure : ∀ failure, g (.error failure) = pure { failure := some failure })
    (hresult : ∀ a, ∃ o : Outcome, o.failure = none ∧ g (.ok a) = pure o)
    (h : Confined places t (x.run t)) : Effect places t ((x.run >>= g) t) := by
  rcases hrun : x.run t with ⟨r, t₂⟩
  rw [hrun] at h
  rw [bind_run hrun]
  cases r with
  | error failure =>
    rw [hfailure]
    exact ⟨fun _ => ⟨rfl, h⟩, fun hstatus => nomatch hstatus⟩
  | ok a =>
    obtain ⟨o, ho, hg⟩ := hresult a
    rw [hg]
    refine ⟨fun hstatus => ?_, fun _ => h⟩
    have hstatus : o.status = 1 := hstatus
    simp [Outcome.status, ho] at hstatus

theorem effect_shown {x : ExceptT Failure (StateM FileTree) String}
    (h : Confined places t (x.run.run t)) : Effect places t (shown x t) :=
  effect_bind (fun _ => rfl) (fun _ => ⟨_, rfl, rfl⟩) h

theorem effect_told {x : ExceptT Failure (StateM FileTree) (List Diagnostic)}
    (h : Confined places t (x.run.run t)) : Effect places t (told x t) :=
  effect_bind (fun _ => rfl) (fun _ => ⟨_, rfl, rfl⟩) h

/-- A run that only tells something. -/
theorem effect_pure {o : Outcome} (ho : o.output = "" ∨ o.failure = none) :
    Effect places t (o, t) := by
  refine ⟨fun hstatus => ⟨ho.resolve_right fun hnone => ?_, .refl t⟩,
    fun _ => (Grows.refl t).writesOnly _⟩
  simp [Outcome.status, hnone] at hstatus

end Outcome

section Told

variable {σ : Type} {a b : σ}

theorem told_ok {x : ExceptT Failure (StateM σ) (List Diagnostic)} {ds : List Diagnostic}
    (h : x.run.run a = (.ok ds, b)) : told x a = ({ messages := Diagnostic.lines ds }, b) :=
  bind_run h

theorem told_error {x : ExceptT Failure (StateM σ) (List Diagnostic)} {failure : Failure}
    (h : x.run.run a = (.error failure, b)) : told x a = ({ failure := some failure }, b) :=
  bind_run h

/-- A run of `changelog` once its settings and options are read. -/
theorem run_changelog [Files (StateM σ)] {s : Settings} {args : List String} {o : ChangelogOptions}
    (hsettings : loadSettings (m := StateM σ) a = (.ok s, b))
    (hoptions : ChangelogOptions.parse s args = .ok o) :
    run (m := StateM σ) ("changelog" :: args) a = told (m := StateM σ) (changelog o) b := by
  rw [run, bind_run hsettings]
  simp only [dispatch, hoptions]
  rfl

end Told

/-- The places where a command may write a file: that of the output of `extract`, and those of
reports on versions in the output directory of `changelog`. -/
inductive Target (t t₂ : FileTree) : List String → List String → Prop
  | stored {args : List String} {o : ExtractOptions} {p : Path} {q : List String}
      (options : ExtractOptions.parse args = .ok o) (output : o.output = some p)
      (leads : t₂.resolve p = .ok q) : Target t t₂ ("extract" :: args) q
  | report {args dir out : List String} {s : Settings} {o : ChangelogOptions} {v text : String}
      (settings : (loadSettings (m := StateM FileTree) t).1 = .ok s)
      (options : ChangelogOptions.parse s args = .ok o)
      (input : t.resolve o.input = .ok dir) (output : DirectoryAt t₂ o.output out)
      (version : VersionFile t dir v text) :
      Target t t₂ ("changelog" :: args) (out ++ [o.report.format.fileName v])

/-- A run that fails shows nothing and neither makes nor changes a file. One that succeeds makes and
changes files only where its command stores a structure or reports on versions. -/
theorem run_effect (args : List String) {t : FileTree} (hw : t.WellFormed) :
    Effect (fun t₂ => Target t t₂ args) t (run (m := StateM FileTree) args t) := by
  cases args with
  | nil => exact effect_pure (.inr rfl)
  | cons command args =>
    have hsettings := loadSettings_run t
    rw [run, bind_run hsettings]
    cases hloaded : settingsIn (settingsText t) with
    | error failure => exact effect_pure (.inl rfl)
    | ok s =>
      simp only
      unfold dispatch
      split
      · refine effect_shown (confined_checked fun o ho => (confined_extract o t).mono ?_)
        rintro t₂ q ⟨p, hp, hq⟩
        exact .stored ho hp hq
      · refine effect_shown (confined_checked fun o _ => (confined_diff o t).mono ?_)
        exact fun _ _ hfalse => hfalse.elim
      · refine effect_told (confined_checked fun o ho => (confined_changelog o hw).mono ?_)
        rintro t₂ q ⟨dir, out, v, text, hinput, hout, hversion, rfl⟩
        exact .report (hloaded ▸ congrArg Prod.fst hsettings) ho hinput hout hversion
      case h_9 => exact effect_pure (.inl rfl)
      all_goals exact effect_pure (.inr rfl)

/-- Reports may be written beside the documents. -/
theorem status_brokenReleases :
    (run (m := StateM FileTree) ["changelog", "in", "-o", "in"] brokenReleases).1.status = 0 := by
  have hsettings : loadSettings (m := StateM FileTree) brokenReleases =
      (.ok {}, brokenReleases) := by rfl
  have hoptions : ChangelogOptions.parse {} ["in", "-o", "in"] = .ok ⟨"in", "in", {}⟩ := by cbv
  rw [run_changelog hsettings hoptions,
    told_ok (changelog_run (by rfl) (by rfl) (Prod.eta _).symm)]
  rfl

/-- A directory that is not there cannot be read. -/
theorem status_missing :
    (run (m := StateM FileTree) ["changelog", "missing"] brokenReleases).1.status = 1 := by
  have hsettings : loadSettings (m := StateM FileTree) brokenReleases =
      (.ok {}, brokenReleases) := by rfl
  have hoptions : ChangelogOptions.parse {} ["missing"] = .ok ⟨"missing", "changes", {}⟩ := by cbv
  have hmissing : (changelog (m := StateM FileTree) ⟨"missing", "changes", {}⟩).run.run
      brokenReleases = (.error (.listing "missing" .notFound), brokenReleases) := by rfl
  rw [run_changelog hsettings hoptions, told_error hmissing]
  rfl

theorem run_effect_brokenReleases :
    brokenReleases.WellFormed ∧
    (let args := ["changelog", "in", "-o", "in"]
     let r := run (m := StateM FileTree) args brokenReleases
     r.1.status = 0 ∧ WritesOnly (Target brokenReleases r.2 args) brokenReleases r.2) ∧
    (let r := run (m := StateM FileTree) ["changelog", "missing"] brokenReleases
     r.1.status = 1 ∧ r.1.output = "" ∧ Grows brokenReleases r.2) :=
  ⟨wellFormed_brokenReleases,
    ⟨status_brokenReleases,
      (run_effect _ wellFormed_brokenReleases).finished status_brokenReleases⟩,
    status_missing, (run_effect _ wellFormed_brokenReleases).failed status_missing⟩

end CommandLine
end ApiSurface
