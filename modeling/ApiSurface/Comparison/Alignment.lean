/-! Alignment of two lists: which values are kept, dropped and added. The lists are cut at their
common ends, a table of longest common subsequences guides the walk through the middle, and every
added run is then moved as far back, and after that as far forward, as equal values let it, joining
the added runs it meets. -/
namespace ApiSurface

/-- A block of an alignment. -/
inductive Edit (α : Type)
  | keep (values : List α)
  | drop (values : List α)
  | add (values : List α)
  deriving Repr, DecidableEq

namespace Edit

variable {α : Type}

/-- The values of the old list in a block. -/
def old : Edit α → List α
  | keep vs | drop vs => vs
  | add _ => []

/-- The values of the new list in a block. -/
def new : Edit α → List α
  | keep vs | add vs => vs
  | drop _ => []

def isAdd : Edit α → Bool
  | add _ => true
  | keep _ | drop _ => false

/-- How many added runs a list of blocks holds. -/
def addCount (es : List (Edit α)) : Nat := es.countP isAdd

@[simp] theorem addCount_nil : addCount ([] : List (Edit α)) = 0 := rfl

@[simp] theorem addCount_cons (e : Edit α) (es : List (Edit α)) :
    addCount (e :: es) = addCount es + if e.isAdd then 1 else 0 := by
  simp [addCount, List.countP_cons]

/-- Put kept values in front of a list of blocks. -/
def keepBefore (vs : List α) : List (Edit α) → List (Edit α)
  | keep ws :: es => keep (vs ++ ws) :: es
  | es => keep vs :: es

/-- Put kept values behind a list of blocks that is given in reverse. -/
def keepAfter (vs : List α) : List (Edit α) → List (Edit α)
  | keep ws :: es => keep (ws ++ vs) :: es
  | es => keep vs :: es

@[simp] theorem addCount_keepBefore (vs : List α) (es : List (Edit α)) :
    addCount (keepBefore vs es) = addCount es := by
  unfold keepBefore; split <;> simp [isAdd]

/-- An added run at its place between blocks; those before it are given in reverse. -/
structure Cursor (α : Type) where
  before : List (Edit α)
  run : List α
  after : List (Edit α)

/-- How far a run may still move through a list of blocks. -/
def room : List (Edit α) → Nat
  | [] => 0
  | e :: es => (e.old ++ e.new).length + 1 + room es

theorem room_cons (e : Edit α) (es : List (Edit α)) :
    room (e :: es) = (e.old ++ e.new).length + 1 + room es := rfl

variable [DecidableEq α]

/-- How many values two lists have in common at the front. -/
def commonFront : List α → List α → Nat
  | a :: as, b :: bs => if a = b then commonFront as bs + 1 else 0
  | _, _ => 0

/-- How many values two lists have in common at the end. -/
def commonEnd (as bs : List α) : Nat := commonFront as.reverse bs.reverse

theorem commonFront_le_left : ∀ as bs : List α, commonFront as bs ≤ as.length
  | [], _ => by simp [commonFront]
  | a :: as, [] => by simp [commonFront]
  | a :: as, b :: bs => by
    have h := commonFront_le_left as bs
    by_cases hab : a = b <;> simp [commonFront, hab]; omega

theorem commonEnd_le_left (as bs : List α) : commonEnd as bs ≤ as.length := by
  simpa [commonEnd] using commonFront_le_left as.reverse bs.reverse

/-- The row of the table for a new list that starts with `b`, over the row below it: entry `j` is
the length of a longest common subsequence with the old list from place `j` on. -/
def row (b : α) : List α → List Nat → List Nat
  | [], _ => [0]
  | a :: as, below =>
    let right := row b as below.tail
    (if b = a then below.tail.headD 0 + 1 else max (below.headD 0) (right.headD 0)) :: right

/-- The rows for all ends of the new list, the whole list first. -/
def table (old : List α) : List α → List (List Nat)
  | [] => [List.replicate (old.length + 1) 0]
  | b :: bs =>
    let below := table old bs
    row b old (below.headD []) :: below

/-- Walk through both lists along the table. Of two ways that keep equally many values the one that
drops comes first. -/
def walk : List α → List α → List (List Nat) → List (Edit α)
  | [], [], _ => []
  | [], b :: bs, _ => [add (b :: bs)]
  | a :: as, [], _ => [drop (a :: as)]
  | a :: as, b :: bs, rows =>
    if b = a then keep [a] :: walk as bs (rows.tail.map List.tail)
    else if (rows.tail.headD []).headD 0 ≤ (rows.headD []).tail.headD 0 then
      drop [a] :: walk as (b :: bs) (rows.map List.tail)
    else add [b] :: walk (a :: as) bs rows.tail
termination_by as bs => as.length + bs.length

/-- A block that is left out when it is empty. -/
def keepSome (vs : List α) : List (Edit α) := if vs.isEmpty then [] else [keep vs]

/-- The blocks of two lists that are cut at their common ends. The middles are walked along the
table of equally long heads of the lists; these are the middles themselves when nothing is common at
the front. -/
def trimmed (old new : List α) : List (Edit α) :=
  let front := commonFront old new
  let old' := old.drop front
  let new' := new.drop front
  let back := commonEnd old' new'
  let oldMiddle := old'.take (old'.length - back)
  let newMiddle := new'.take (new'.length - back)
  keepSome (old.take front)
    ++ walk oldMiddle newMiddle (table (old.take oldMiddle.length) (new.take newMiddle.length))
    ++ keepSome (old'.drop (old'.length - back))

/-- The blocks of two lists, before runs are moved. Next to a list without values the other one is a
single block, even if it has no values either. -/
def blocks (old new : List α) : List (Edit α) :=
  if new.isEmpty then [drop old] else if old.isEmpty then [add new] else trimmed old new

/-- Move an added run back. It passes dropped values, and kept values that end as it does, and joins
the added runs it meets. -/
def moveBack (run : List α) : List (Edit α) → List (Edit α) → Cursor α
  | [], after => ⟨[], run, after⟩
  | keep ks :: before, after =>
    let n := commonEnd ks run
    if n = 0 then ⟨keep ks :: before, run, after⟩
    else
      let passed := ks.drop (ks.length - n)
      let moved := passed ++ run.take (run.length - n)
      if n = ks.length then moveBack moved before (keepBefore passed after)
      else moveBack moved (keep (ks.take (ks.length - n)) :: before) (keepBefore passed after)
  | drop vs :: before, after => moveBack run before (drop vs :: after)
  | add vs :: before, after => moveBack (vs ++ run) before after
termination_by before => room before
decreasing_by
  all_goals simp only [room_cons, old, new, List.length_append, List.length_take]
  · omega
  · have := commonEnd_le_left ks run
    omega
  all_goals omega

/-- Move an added run forward, in the same way. -/
def moveForward (before : List (Edit α)) (run : List α) : List (Edit α) → Cursor α
  | [] => ⟨before, run, []⟩
  | keep ks :: after =>
    let n := commonFront ks run
    if n = 0 then ⟨before, run, keep ks :: after⟩
    else
      let passed := ks.take n
      let moved := run.drop n ++ passed
      if n = ks.length then moveForward (keepAfter passed before) moved after
      else moveForward (keepAfter passed before) moved (keep (ks.drop n) :: after)
  | drop vs :: after => moveForward (drop vs :: before) run after
  | add vs :: after => moveForward before (run ++ vs) after
termination_by after => room after
decreasing_by
  all_goals simp only [room_cons, old, new, List.length_append, List.length_drop]
  · omega
  · have := commonFront_le_left ks run
    omega
  all_goals omega

theorem addCount_moveBack (run : List α) (before after : List (Edit α)) :
    addCount (moveBack run before after).after = addCount after := by
  fun_induction moveBack run before after <;> simp_all [isAdd]

theorem addCount_moveForward (before : List (Edit α)) (run : List α) (after : List (Edit α)) :
    addCount (moveForward before run after).after ≤ addCount after := by
  fun_induction moveForward before run after with
  | case1 => simp
  | case2 => simp
  | case3 before run ks after n h passed moved hn ih => simpa [isAdd] using ih
  | case4 before run ks after n h passed moved hn ih => simpa [isAdd] using ih
  | case5 before run vs after ih => simpa [isAdd] using ih
  | case6 before run vs after ih => simpa [isAdd] using Nat.le_succ_of_le ih

/-- Move an added run as far back and then as far forward as it goes. -/
def place (before : List (Edit α)) (run : List α) (after : List (Edit α)) : Cursor α :=
  let back := moveBack run before after
  moveForward back.before back.run back.after

theorem addCount_place (before : List (Edit α)) (run : List α) (after : List (Edit α)) :
    addCount (place before run after).after ≤ addCount after := by
  rw [← addCount_moveBack run before after]
  exact addCount_moveForward _ _ _

/-- Place the added runs, from the first to the last. -/
def settle (before : List (Edit α)) : List (Edit α) → List (Edit α)
  | [] => before.reverse
  | keep vs :: es => settle (keep vs :: before) es
  | drop vs :: es => settle (drop vs :: before) es
  | add vs :: es =>
    let placed := place before vs es
    settle (add placed.run :: placed.before) placed.after
termination_by es => (addCount es, es.length)
decreasing_by
  · simpa [isAdd] using Prod.Lex.right _ (Nat.lt_succ_self _)
  · simpa [isAdd] using Prod.Lex.right _ (Nat.lt_succ_self _)
  · refine Prod.Lex.left _ _ ?_
    simpa [isAdd] using Nat.lt_succ_of_le (addCount_place before vs es)

/-- The alignment of two lists. -/
def align (old new : List α) : List (Edit α) := settle [] (blocks old new)

end Edit
end ApiSurface
