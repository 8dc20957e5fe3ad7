import Mathlib
import ApiSurface.Proofs.Releases

/-! Runs of the command `changelog` in a file tree, over documents that are given by version and
text. A run passes over what cannot be decoded and writes one report for each pair of neighbours in
the rest; a directory in the place of a report costs that report and nothing else. -/
namespace ApiSurface.CommandLine

open Report (Format)

/-! What a run is to do. -/

/-- The documents that can be decoded. -/
def loaded (docs : List (String × String)) : List (String × Structure) :=
  docs.filterMap fun d => (Structure.decode d.2).toOption.map (d.1, ·)

/-- The documents that cannot, with the reasons. -/
def refused (docs : List (String × String)) : List (String × DocumentFault) :=
  docs.filterMap fun d =>
    match Structure.decode d.2 with
    | .ok _ => none
    | .error fault => some (d.1, fault)

/-- The pairs of neighbours that are compared, when one may have been read before. -/
def compared (previous : Option (String × Structure)) (docs : List (String × String)) :
    List ((String × Structure) × (String × Structure)) :=
  let all := previous.toList ++ loaded docs
  all.zip all.tail

section Equations

variable {v text : String} (docs : List (String × String))

theorem loaded_cons_error {fault : DocumentFault} (h : Structure.decode text = .error fault) :
    loaded ((v, text) :: docs) = loaded docs := by
  simp [loaded, h, Except.toOption]

theorem loaded_cons_ok {s : Structure} (h : Structure.decode text = .ok s) :
    loaded ((v, text) :: docs) = (v, s) :: loaded docs := by
  simp [loaded, h, Except.toOption]

theorem refused_cons_error {fault : DocumentFault} (h : Structure.decode text = .error fault) :
    refused ((v, text) :: docs) = (v, fault) :: refused docs := by
  simp [refused, h]

theorem refused_cons_ok {s : Structure} (h : Structure.decode text = .ok s) :
    refused ((v, text) :: docs) = refused docs := by
  simp [refused, h]

theorem compared_cons_error (previous : Option (String × Structure)) {fault : DocumentFault}
    (h : Structure.decode text = .error fault) :
    compared previous ((v, text) :: docs) = compared previous docs := by
  rw [compared, compared, loaded_cons_error docs h]

theorem compared_nil (previous : Option (String × Structure)) : compared previous [] = [] := by
  cases previous <;> rfl

theorem compared_none_cons_ok {s : Structure} (h : Structure.decode text = .ok s) :
    compared none ((v, text) :: docs) = compared (some (v, s)) docs := by
  rw [compared, compared, loaded_cons_ok docs h]
  rfl

theorem compared_some_cons_ok (old : String × Structure) {s : Structure}
    (h : Structure.decode text = .ok s) :
    compared (some old) ((v, text) :: docs) = (old, (v, s)) :: compared (some (v, s)) docs := by
  rw [compared, compared, loaded_cons_ok docs h]
  rfl

end Equations

/-- What is loaded are documents, by their versions. -/
theorem loaded_sublist (docs : List (String × String)) :
    ((loaded docs).map Prod.fst).Sublist (docs.map Prod.fst) := by
  induction docs with
  | nil => exact .refl _
  | cons d docs ih =>
    obtain ⟨v, text⟩ := d
    cases hdecode : Structure.decode text with
    | error fault =>
      rw [loaded_cons_error docs hdecode]
      exact ih.cons v
    | ok s =>
      rw [loaded_cons_ok docs hdecode]
      exact ih.cons_cons v

/-- Every report is on the version of a document. -/
theorem mem_of_mem_compared {docs : List (String × String)}
    {pair : (String × Structure) × (String × Structure)} (h : pair ∈ compared none docs) :
    pair.2.1 ∈ docs.map Prod.fst := by
  have hloaded : pair.2 ∈ loaded docs := List.mem_of_mem_tail (List.of_mem_zip h).2
  exact (loaded_sublist docs).subset (List.mem_map_of_mem hloaded)

/-- Every report is on another version. -/
theorem nodup_compared {docs : List (String × String)} (h : (docs.map Prod.fst).Nodup) :
    ((compared none docs).map (·.2.1)).Nodup := by
  have hsnd : (compared none docs).map (·.2.1) = (loaded docs).tail.map Prod.fst := by
    have hcomp : (fun pair : (String × Structure) × (String × Structure) => pair.2.1) =
        Prod.fst ∘ Prod.snd := rfl
    rw [hcomp, ← List.map_map, compared, List.map_snd_zip]
    · rfl
    · simp
  rw [hsnd]
  exact h.sublist (((List.tail_sublist _).map Prod.fst).trans (loaded_sublist docs))

section Run

variable (o : ChangelogOptions) (dir out : List String)

/-- Where the report on a version stands. -/
def reportPlace (v : String) : List String := out ++ [o.report.format.fileName v]

/-- What is said of a document that cannot be decoded. -/
def refusal (v : String) (fault : DocumentFault) : Diagnostic :=
  let path := Path.join o.input (documentName v)
  ⟨.error, (Failure.decoding path fault).summary, some path⟩

/-- What is said of a report that has a directory in its place. -/
def obstruction (v : String) : Diagnostic :=
  let path := Path.join o.output (o.report.format.fileName v)
  ⟨.error, (Failure.writing path .isDirectory).summary, some path⟩

/-- A directory is in the place of the report on a version. -/
def isObstructed (t : FileTree) (v : String) : Bool := t.at? (reportPlace o out v) = some none

/-- A tree with one more report, if there is a place for it. -/
def withReport (t : FileTree) (pair : (String × Structure) × (String × Structure)) : FileTree :=
  if isObstructed o out t pair.2.1 then t
  else t.put (reportPlace o out pair.2.1) (some (releaseReport o.report pair.1 pair.2))

/-! Single steps. -/

theorem bind_run {σ α β : Type} {x : StateM σ α} {f : α → StateM σ β} {s s' : σ} {a : α}
    (h : x s = (a, s')) : (x >>= f) s = f a s' := by
  simp only [bind, StateT.bind, h]

theorem read_run (t : FileTree) (path : Path) :
    Files.read (m := StateM FileTree) path t = (t.read path, t) := rfl

theorem write_run (t : FileTree) (path : Path) (content : String) :
    Files.write (m := StateM FileTree) path content t =
      match t.write path content with
      | .ok t' => (.ok (), t')
      | .error fault => (.error fault, t) := rfl

theorem list_run (t : FileTree) (path : Path) :
    Files.list (m := StateM FileTree) path t = (t.list path, t) := rfl

theorem makeDirectories_run {t t' : FileTree} {path : Path} {result : Except FileFault Unit}
    (h : t.makeDirectories path = (t', result)) :
    Files.makeDirectories (m := StateM FileTree) path t = (result, t') := by
  simp only [Files.makeDirectories, h]

theorem load_run {t : FileTree} {path : Path} {text : String} (h : t.read path = .ok text) :
    load (m := StateM FileTree) path t =
      ((Structure.decode text).mapError (.decoding path), t) := by
  rw [load, bind_run (read_run t path), h]
  rfl

variable {o dir out}

/-- A report is written unless a directory is in its place. -/
theorem write_report_run {t : FileTree} (hout : FileTree.DirectoryAt t o.output out) {v : String}
    (hn : Path.IsName (documentName v)) (old : String × Structure) (s : Structure) :
    Files.write (m := StateM FileTree) (Path.join o.output (o.report.format.fileName v))
        (releaseReport o.report old (v, s)) t =
      (if isObstructed o out t v then .error .isDirectory else .ok (),
        withReport o out t (old, (v, s))) := by
  rw [write_run, FileTree.write_join hout (isName_fileName hn o.report.format), withReport]
  by_cases hd : t.at? (out ++ [o.report.format.fileName v]) = some none
  · have hobstructed : isObstructed o out t v = true := decide_eq_true hd
    simp only [hd, hobstructed, if_true]
  · have hfree : isObstructed o out t v = false := decide_eq_false hd
    simp only [hd, hfree, if_false, Bool.false_eq_true]
    rfl

variable {t : FileTree} {v text : String}
  (hread : t.read (release o.input v).path = .ok text) (p : Progress)
include hread

/-- A document that cannot be decoded is passed over. -/
theorem addRelease_refused {fault : DocumentFault} (h : Structure.decode text = .error fault) :
    addRelease (m := StateM FileTree) o p (release o.input v) t =
      (⟨p.previous, p.diagnostics ++ [refusal o v fault]⟩, t) := by
  rw [addRelease, bind_run (load_run hread), h]
  rfl

/-- The first document is only read. -/
theorem addRelease_first {s : Structure} (h : Structure.decode text = .ok s)
    (hp : p.previous = none) :
    addRelease (m := StateM FileTree) o p (release o.input v) t =
      (⟨some (v, s), p.diagnostics⟩, t) := by
  rw [addRelease, bind_run (load_run hread), h]
  simp only [Except.mapError, hp]
  rfl

/-- Every other one is compared with the last that was read. -/
theorem addRelease_later {s : Structure} (h : Structure.decode text = .ok s)
    {old : String × Structure} (hp : p.previous = some old)
    (hout : FileTree.DirectoryAt t o.output out) (hn : Path.IsName (documentName v)) :
    addRelease (m := StateM FileTree) o p (release o.input v) t =
      (⟨some (v, s), p.diagnostics ++ if isObstructed o out t v then [obstruction o v] else []⟩,
        withReport o out t (old, (v, s))) := by
  rw [addRelease, bind_run (load_run hread), h]
  simp only [Except.mapError, hp]
  rw [release, bind_run (write_report_run hout hn old s)]
  cases isObstructed o out t v with
  | true => rfl
  | false =>
    rw [if_neg (by simp), if_neg (by simp), List.append_nil]
    rfl

omit hread

/-! What a report changes. -/

theorem at?_withReport (t : FileTree) (pair : (String × Structure) × (String × Structure))
    (q : List String) :
    (withReport o out t pair).at? q =
      if q = reportPlace o out pair.2.1 ∧ isObstructed o out t pair.2.1 = false then
        some (some (releaseReport o.report pair.1 pair.2))
      else t.at? q := by
  rw [withReport]
  cases h : isObstructed o out t pair.2.1 with
  | true => simp
  | false =>
    rw [if_neg (by simp), FileTree.at?_put t (by simp [reportPlace])]
    simp only [and_true]

/-- Directories stay, and no other ones come. -/
theorem at?_withReport_eq_directory (t : FileTree)
    (pair : (String × Structure) × (String × Structure)) (q : List String) :
    (withReport o out t pair).at? q = some none ↔ t.at? q = some none := by
  rw [at?_withReport]
  split_ifs with h
  · obtain ⟨rfl, hfree⟩ := h
    simpa [isObstructed] using hfree
  · rfl

theorem isObstructed_withReport (t : FileTree)
    (pair : (String × Structure) × (String × Structure)) (v : String) :
    isObstructed o out (withReport o out t pair) v = isObstructed o out t v := by
  rw [isObstructed, isObstructed, decide_eq_decide]
  exact at?_withReport_eq_directory t pair (reportPlace o out v)

theorem keeps_withReport (t : FileTree) (pair : (String × Structure) × (String × Structure)) :
    FileTree.Keeps t (withReport o out t pair) := by
  rw [withReport]
  cases h : isObstructed o out t pair.2.1 with
  | true => exact .refl t
  | false => exact FileTree.keeps_put (of_decide_eq_false h) _

theorem reportPlace_injective : Function.Injective (reportPlace o out) := by
  intro u v h
  have hlast := congrArg List.getLast? h
  simp only [reportPlace, List.getLast?_concat, Option.some_inj] at hlast
  exact fileName_injective o.report.format hlast

theorem documentPlace_ne_reportPlace {v : String} (h : IsVersion v) (u : String) :
    dir ++ [documentName v] ≠ reportPlace o out u := by
  intro heq
  have hlast := congrArg List.getLast? heq
  rw [reportPlace, List.getLast?_concat, List.getLast?_concat, Option.some_inj] at hlast
  exact fileName_ne_documentName o.report.format u h hlast.symm

/-! Whole runs. -/

/-- Documents that are still to be read, in a tree that leads to them and to the reports. -/
structure Ready (o : ChangelogOptions) (dir out : List String) (t : FileTree)
    (docs : List (String × String)) : Prop where
  input : FileTree.DirectoryAt t o.input dir
  output : FileTree.DirectoryAt t o.output out
  version : ∀ d ∈ docs, IsVersion d.1
  name : ∀ d ∈ docs, Path.IsName (documentName d.1)
  text : ∀ d ∈ docs, t.at? (dir ++ [documentName d.1]) = some (some d.2)

namespace Ready

variable {docs : List (String × String)} {d : String × String}

theorem read_head (h : Ready o dir out t (d :: docs)) :
    t.read (release o.input d.1).path = .ok d.2 :=
  FileTree.read_join h.input (h.name d List.mem_cons_self) (h.text d List.mem_cons_self)

theorem tail (h : Ready o dir out t (d :: docs)) : Ready o dir out t docs where
  input := h.input
  output := h.output
  version d' hd' := h.version d' (List.mem_cons_of_mem d hd')
  name d' hd' := h.name d' (List.mem_cons_of_mem d hd')
  text d' hd' := h.text d' (List.mem_cons_of_mem d hd')

theorem withReport (h : Ready o dir out t docs)
    (pair : (String × Structure) × (String × Structure)) :
    Ready o dir out (withReport o out t pair) docs where
  input := h.input.of_keeps (keeps_withReport t pair)
  output := h.output.of_keeps (keeps_withReport t pair)
  version := h.version
  name := h.name
  text d hd := by
    have hne : dir ++ [documentName d.1] ≠ reportPlace o out pair.2.1 :=
      documentPlace_ne_reportPlace (h.version d hd) pair.2.1
    rw [at?_withReport, if_neg fun heq => hne heq.1]
    exact h.text d hd

end Ready

/-- What is said of the documents that cannot be decoded and of the reports that have no place. -/
def notes (o : ChangelogOptions) (out : List String) (t : FileTree)
    (previous : Option (String × Structure)) (docs : List (String × String)) : List Diagnostic :=
  (refused docs).map (fun d => refusal o d.1 d.2) ++
    ((compared previous docs).filter (isObstructed o out t ·.2.1)).map (obstruction o ·.2.1)

theorem notes_later (t : FileTree) (old : String × Structure) {v text : String} {s : Structure}
    (h : Structure.decode text = .ok s) (docs : List (String × String)) :
    (notes o out t (some old) ((v, text) :: docs)).Perm
      ((if isObstructed o out t v then [obstruction o v] else []) ++
        notes o out (withReport o out t (old, (v, s))) (some (v, s)) docs) := by
  have hsame (v : String) : isObstructed o out (withReport o out t (old, (v, s))) v =
      isObstructed o out t v := isObstructed_withReport t _ v
  simp only [notes, refused_cons_ok docs h, compared_some_cons_ok docs old h,
    isObstructed_withReport, List.filter_cons]
  cases hb : isObstructed o out t v with
  | true =>
    simp only [if_true, List.map_cons, List.singleton_append]
    exact List.perm_middle
  | false => simp

/-- A run gives every document its step, whatever went wrong before. -/
theorem foldlM_addRelease (docs : List (String × String)) {t : FileTree}
    (h : Ready o dir out t docs) (p : Progress) :
    ∃ p' : Progress,
      (docs.map fun d => release o.input d.1).foldlM (addRelease (m := StateM FileTree) o) p t =
        (p', (compared p.previous docs).foldl (withReport o out) t) ∧
      p'.diagnostics.Perm (p.diagnostics ++ notes o out t p.previous docs) := by
  induction docs generalizing t p with
  | nil =>
    refine ⟨p, ?_, ?_⟩
    · cases p.previous <;> rfl
    · have hnone : notes o out t p.previous [] = [] := by
        cases p.previous <;> rfl
      rw [hnone, List.append_nil]
  | cons d docs ih =>
    obtain ⟨v, text⟩ := d
    have hread := h.read_head
    rw [List.map_cons, List.foldlM_cons]
    cases hdecode : Structure.decode text with
    | error fault =>
      obtain ⟨p', hrun, hsaid⟩ := ih h.tail ⟨p.previous, p.diagnostics ++ [refusal o v fault]⟩
      refine ⟨p', ?_, ?_⟩
      · rw [bind_run (addRelease_refused hread p hdecode), hrun,
          compared_cons_error docs p.previous hdecode]
      · refine hsaid.trans (.of_eq ?_)
        simp only [notes, refused_cons_error docs hdecode, compared_cons_error docs _ hdecode,
          List.map_cons, List.append_assoc, List.cons_append, List.nil_append]
    | ok s =>
      cases hp : p.previous with
      | none =>
        obtain ⟨p', hrun, hsaid⟩ := ih h.tail ⟨some (v, s), p.diagnostics⟩
        refine ⟨p', ?_, ?_⟩
        · rw [bind_run (addRelease_first hread p hdecode hp), hrun,
            compared_none_cons_ok docs hdecode]
        · refine hsaid.trans (.of_eq ?_)
          simp only [notes, refused_cons_ok docs hdecode, compared_none_cons_ok docs hdecode]
      | some old =>
        obtain ⟨p', hrun, hsaid⟩ := ih (h.tail.withReport (old, (v, s)))
          ⟨some (v, s), p.diagnostics ++ if isObstructed o out t v then [obstruction o v] else []⟩
        refine ⟨p', ?_, ?_⟩
        · rw [bind_run (addRelease_later hread p hdecode hp h.output (h.name _ List.mem_cons_self)),
            hrun, compared_some_cons_ok docs old hdecode]
          rfl
        · rw [List.append_assoc] at hsaid
          exact hsaid.trans ((notes_later t old hdecode docs).symm.append_left _)

/-! The tree after a run. -/

theorem at?_foldl_withReport_of_ne (pairs : List ((String × Structure) × (String × Structure)))
    {t : FileTree} {q : List String}
    (h : ∀ pair ∈ pairs, q = reportPlace o out pair.2.1 → isObstructed o out t pair.2.1) :
    (pairs.foldl (withReport o out) t).at? q = t.at? q := by
  induction pairs generalizing t with
  | nil => rfl
  | cons first rest ih =>
    rw [List.foldl_cons, ih, at?_withReport, if_neg]
    · rintro ⟨hq, hfree⟩
      rw [h first List.mem_cons_self hq] at hfree
      cases hfree
    · intro pair hpair hq
      rw [isObstructed_withReport]
      exact h pair (List.mem_cons_of_mem first hpair) hq

theorem at?_foldl_withReport_of_mem {pairs : List ((String × Structure) × (String × Structure))}
    (hd : (pairs.map (·.2.1)).Nodup) {t : FileTree}
    {pair : (String × Structure) × (String × Structure)} (hpair : pair ∈ pairs)
    (h : isObstructed o out t pair.2.1 = false) :
    (pairs.foldl (withReport o out) t).at? (reportPlace o out pair.2.1) =
      some (some (releaseReport o.report pair.1 pair.2)) := by
  induction pairs generalizing t with
  | nil => cases hpair
  | cons first rest ih =>
    obtain ⟨hfirst, hrest⟩ := List.nodup_cons.mp hd
    rw [List.foldl_cons]
    rcases List.mem_cons.mp hpair with rfl | hpair
    · rw [at?_foldl_withReport_of_ne, at?_withReport, if_pos ⟨rfl, h⟩]
      intro other hother hq
      exact absurd (List.mem_map.mpr ⟨other, hother, (reportPlace_injective hq).symm⟩) hfirst
    · exact ih hrest hpair ((isObstructed_withReport t first pair.2.1).trans h)

end Run

end ApiSurface.CommandLine
