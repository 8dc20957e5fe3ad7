import Mathlib
import ApiSurface.CommandLine
import ApiSurface.Proofs.ChangelogRuns

/-! Runs with a journal of what they read and write. The commands know files by five actions only,
so whatever relates these in two worlds relates whole runs. In particular a journal changes nothing
about a run in a tree. -/
namespace ApiSurface
namespace CommandLine

/-! Worlds with files. -/

/-- A relation between the actions of two worlds that accesses to files stand in, and with any two
actions those that are made of them. -/
structure Correspondence (m n : Type → Type) [Monad m] [Monad n] [Files m] [Files n]
    (R : ∀ {α : Type}, m α → n α → Prop) : Prop where
  pure : ∀ {α : Type} (a : α), R (Pure.pure a) (Pure.pure a)
  bind : ∀ {α β : Type} {x : m α} {y : n α} {f : α → m β} {g : α → n β}, R x y →
    (∀ a, R (f a) (g a)) → R (x >>= f) (y >>= g)
  map : ∀ {α β : Type} (f : α → β) {x : m α} {y : n α}, R x y → R (f <$> x) (f <$> y)
  isFile : ∀ p, R (Files.isFile p) (Files.isFile p)
  read : ∀ p, R (Files.read p) (Files.read p)
  list : ∀ p, R (Files.list p) (Files.list p)
  makeDirectories : ∀ p, R (Files.makeDirectories p) (Files.makeDirectories p)
  write : ∀ p content, R (Files.write p content) (Files.write p content)

namespace Correspondence

variable {m n : Type → Type} [Monad m] [Monad n] [Files m] [Files n]
  {R : ∀ {α : Type}, m α → n α → Prop} (h : Correspondence m n R)
include h

theorem foldlM {α β : Type} {f : β → α → m β} {g : β → α → n β} (hfg : ∀ b a, R (f b a) (g b a))
    (xs : List α) (b : β) : R (xs.foldlM f b) (xs.foldlM g b) := by
  induction xs generalizing b with
  | nil => exact h.pure b
  | cons a xs ih =>
    rw [List.foldlM_cons, List.foldlM_cons]
    exact h.bind (hfg b a) ih

/-! Actions that may fail. -/

theorem bindE {ε α β : Type} {x : ExceptT ε m α} {y : ExceptT ε n α} {f : α → ExceptT ε m β}
    {g : α → ExceptT ε n β} (hxy : R x.run y.run) (hfg : ∀ a, R (f a).run (g a).run) :
    R (x >>= f).run (y >>= g).run := by
  rw [ExceptT.run_bind, ExceptT.run_bind]
  refine h.bind hxy fun r => ?_
  cases r with
  | error e => exact h.pure (Except.error e)
  | ok a => exact hfg a

theorem liftE {ε α : Type} {x : m α} {y : n α} (hxy : R x y) :
    R (liftM x : ExceptT ε m α).run (liftM y : ExceptT ε n α).run := by
  exact h.map Except.ok hxy

/-! Commands. -/

theorem loadSettings : R (loadSettings (m := m)) (loadSettings (m := n)) := by
  refine h.bind (h.isFile Settings.fileName) fun there => ?_
  cases there with
  | false => exact h.pure _
  | true =>
    refine h.bind (h.read Settings.fileName) fun text => ?_
    cases text <;> exact h.pure _

theorem load (p : Path) : R (load (m := m) p) (load (m := n) p) := by
  refine h.bind (h.read p) fun text => ?_
  cases text <;> exact h.pure _

theorem extractFile (p : Path) : R (extractFile (m := m) p) (extractFile (m := n) p) := by
  refine h.bind (h.read p) fun text => ?_
  cases text <;> exact h.pure _

theorem prepare (p : Path) : R (prepare (m := m) p) (prepare (m := n) p) := by
  unfold CommandLine.prepare
  cases Path.parent? p with
  | none => exact h.pure _
  | some directory =>
    by_cases hempty : directory = ""
    · subst hempty
      exact h.pure _
    · simp only
      exact h.bind (h.makeDirectories directory) fun r => h.pure _

theorem extract (o : ExtractOptions) : R (extract (m := m) o).run (extract (m := n) o).run := by
  refine h.bindE (h.extractFile o.input) fun structure' => ?_
  cases o.output with
  | none => exact h.pure _
  | some p =>
    refine h.bindE (h.prepare p) fun _ => ?_
    refine h.bindE (h.bind (h.write p _) fun r => h.pure _) fun _ => ?_
    exact h.pure _

theorem diff (o : DiffOptions) : R (diff (m := m) o).run (diff (m := n) o).run := by
  refine h.bindE (h.load o.old) fun old => ?_
  refine h.bindE (h.load o.new) fun new => ?_
  exact h.pure _

theorem addRelease (o : ChangelogOptions) (p : Progress) (r : Release) :
    R (addRelease (m := m) o p r) (addRelease (m := n) o p r) := by
  refine h.bind (h.load r.path) fun loaded => ?_
  cases loaded with
  | error failure => exact h.pure _
  | ok s =>
    cases hp : p.previous with
    | none => exact h.pure _
    | some old =>
      refine h.bind (h.write _ _) fun written => ?_
      cases written <;> exact h.pure _

theorem changelog (o : ChangelogOptions) :
    R (changelog (m := m) o).run (changelog (m := n) o).run := by
  refine h.bindE (h.liftE (h.list o.input)) fun listed => ?_
  cases listed with
  | error fault => exact h.pure _
  | ok names =>
    refine h.bindE (h.liftE (h.makeDirectories o.output)) fun made => ?_
    cases made with
    | error fault => exact h.pure _
    | ok =>
      refine h.bindE (h.liftE (h.foldlM (h.addRelease o) _ _)) fun p => ?_
      exact h.pure _

theorem shown {x : ExceptT Failure m String} {y : ExceptT Failure n String}
    (hxy : R x.run y.run) : R (shown x) (shown y) := by
  refine h.bind hxy fun r => ?_
  cases r <;> exact h.pure _

theorem told {x : ExceptT Failure m (List Diagnostic)} {y : ExceptT Failure n (List Diagnostic)}
    (hxy : R x.run y.run) : R (told x) (told y) := by
  refine h.bind hxy fun r => ?_
  cases r <;> exact h.pure _

/-- Runs correspond when the accesses to files do. -/
theorem run (args : List String) : R (run (m := m) args) (run (m := n) args) := by
  cases args with
  | nil => exact h.pure _
  | cons command args =>
    refine h.bind h.loadSettings fun loaded => ?_
    cases loaded with
    | error failure => exact h.pure _
    | ok s =>
      simp only
      unfold dispatch
      split
      · exact h.shown (h.bindE (h.pure _) fun o => h.extract o)
      · exact h.shown (h.bindE (h.pure _) fun o => h.diff o)
      · exact h.told (h.bindE (h.pure _) fun o => h.changelog o)
      all_goals exact h.pure _

end Correspondence

end CommandLine

/-! Journals. -/

/-- One access to the content of a file, with its result. -/
inductive Access
  | read (path : Path) (result : Except FileFault String)
  | write (path : Path) (content : String) (result : Except FileFault Unit)

/-- A file tree with the accesses to its files, the first one first. -/
structure Journal where
  tree : FileTree
  accesses : List Access := []

namespace Journal

/-- What is done in the tree, with the accesses that it makes. -/
def act {α : Type} (x : StateM FileTree α) (made : α → List Access) : StateM Journal α := fun j =>
  let (a, tree) := x j.tree
  (a, ⟨tree, j.accesses ++ made a⟩)

instance : Files (StateM Journal) where
  isFile p := act (Files.isFile p) fun _ => []
  read p := act (Files.read p) fun result => [.read p result]
  list p := act (Files.list p) fun _ => []
  makeDirectories p := act (Files.makeDirectories p) fun _ => []
  write p content := act (Files.write p content) fun result => [.write p content result]

theorem act_run {α : Type} {x : StateM FileTree α} {t t' : FileTree} {a : α} (h : x t = (a, t'))
    (made : α → List Access) (log : List Access) :
    act x made ⟨t, log⟩ = (a, ⟨t', log ++ made a⟩) := by
  rw [act, h]

theorem act_run_silent {α : Type} {x : StateM FileTree α} {t t' : FileTree} {a : α}
    (h : x t = (a, t')) (log : List Access) : act x (fun _ => []) ⟨t, log⟩ = (a, ⟨t', log⟩) := by
  rw [act_run h, List.append_nil]

/-- An action that does with a journal what another one does without. -/
def Mirrors {α : Type} (x : StateM Journal α) (y : StateM FileTree α) : Prop :=
  ∀ j, y j.tree = ((x j).1, (x j).2.tree)

theorem mirrors_act {α : Type} (x : StateM FileTree α) (made : α → List Access) :
    Mirrors (act x made) x := fun _ => rfl

theorem correspondence_mirrors :
    CommandLine.Correspondence (StateM Journal) (StateM FileTree) Mirrors where
  pure _ _ := rfl
  bind hxy hfg j := (CommandLine.bind_run (hxy j)).trans (hfg _ _)
  map f _ _ hxy j := congrArg (fun r : _ × FileTree => (f r.1, r.2)) (hxy j)
  isFile _ := mirrors_act _ _
  read _ := mirrors_act _ _
  list _ := mirrors_act _ _
  makeDirectories _ := mirrors_act _ _
  write _ _ := mirrors_act _ _

/-- A journal changes nothing about a run. -/
theorem run_eq (args : List String) (j : Journal) :
    CommandLine.run (m := StateM FileTree) args j.tree =
      ((CommandLine.run (m := StateM Journal) args j).1,
        (CommandLine.run (m := StateM Journal) args j).2.tree) :=
  correspondence_mirrors.run args j

end Journal

/-- The accesses of a run in a tree. -/
def accesses (args : List String) (t : FileTree) : List Access :=
  (CommandLine.run (m := StateM Journal) args ⟨t, []⟩).2.accesses

end ApiSurface
