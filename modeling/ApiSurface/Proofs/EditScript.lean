import Mathlib
import ApiSurface.Comparison.Alignment

/-! What an alignment says. Read from the old side it is the old list and read from the new side the
new one, and moving added runs changes neither reading, nor which values are kept. -/
namespace ApiSurface
namespace Edit

variable {α : Type}

/-- The values a block keeps. -/
def kept : Edit α → List α
  | keep vs => vs
  | drop _ | add _ => []

def dropped : Edit α → List α
  | drop vs => vs
  | keep _ | add _ => []

def added : Edit α → List α
  | add vs => vs
  | keep _ | drop _ => []

/-- Two lists of blocks that stand for the same lists and keep the same values. -/
structure Same (es fs : List (Edit α)) : Prop where
  old : es.flatMap Edit.old = fs.flatMap Edit.old
  new : es.flatMap Edit.new = fs.flatMap Edit.new
  kept : es.flatMap Edit.kept = fs.flatMap Edit.kept

namespace Same

variable {es es' fs fs' gs : List (Edit α)}

theorem refl (es : List (Edit α)) : Same es es := ⟨rfl, rfl, rfl⟩

theorem symm (h : Same es fs) : Same fs es := ⟨h.old.symm, h.new.symm, h.kept.symm⟩

theorem trans (h : Same es fs) (h' : Same fs gs) : Same es gs :=
  ⟨h.old.trans h'.old, h.new.trans h'.new, h.kept.trans h'.kept⟩

theorem append (h : Same es fs) (h' : Same es' fs') : Same (es ++ es') (fs ++ fs') := by
  constructor
  · simp only [List.flatMap_append, h.old, h'.old]
  · simp only [List.flatMap_append, h.new, h'.new]
  · simp only [List.flatMap_append, h.kept, h'.kept]

/-- Blocks may be replaced in any place. -/
theorem inside (h : Same es fs) (before after : List (Edit α)) :
    Same (before ++ (es ++ after)) (before ++ (fs ++ after)) :=
  (refl before).append (h.append (refl after))

theorem keep_nil : Same [keep ([] : List α)] [] := ⟨rfl, rfl, rfl⟩

theorem keep_keep (vs ws : List α) : Same [keep vs, keep ws] [keep (vs ++ ws)] := by
  constructor <;> simp [Edit.old, Edit.new, Edit.kept]

theorem drop_add (vs run : List α) : Same [drop vs, add run] [add run, drop vs] := by
  constructor <;> simp [Edit.old, Edit.new, Edit.kept]

theorem add_add (vs run : List α) : Same [add vs, add run] [add (vs ++ run)] := by
  constructor <;> simp [Edit.old, Edit.new, Edit.kept]

/-- An added run passes kept values that it ends with. -/
theorem back (ks passed run : List α) :
    Same [keep (ks ++ passed), add (run ++ passed)]
      [keep ks, add (passed ++ run), keep passed] := by
  constructor <;> simp [Edit.old, Edit.new, Edit.kept]

/-- An added run passes kept values that it starts with. -/
theorem forward (ks passed run : List α) :
    Same [add (passed ++ run), keep (passed ++ ks)]
      [keep passed, add (run ++ passed), keep ks] := by
  constructor <;> simp [Edit.old, Edit.new, Edit.kept]

theorem keepBefore (vs : List α) (es : List (Edit α)) :
    Same (keepBefore vs es) (keep vs :: es) := by
  unfold Edit.keepBefore
  split
  · exact (keep_keep _ _).symm.append (refl _)
  · exact refl _

theorem keepAfter (vs : List α) (es : List (Edit α)) :
    Same (keepAfter vs es).reverse (es.reverse ++ [keep vs]) := by
  unfold Edit.keepAfter
  split
  · simpa using (refl _).append (keep_keep _ _).symm
  · simpa using refl _

end Same

/-- The blocks with an added run at its place. -/
def Cursor.script (c : Cursor α) : List (Edit α) := c.before.reverse ++ add c.run :: c.after

theorem flatMap_keepSome (f : Edit α → List α) (hf : f (keep []) = []) (vs : List α) :
    (keepSome vs).flatMap f = f (keep vs) := by
  cases vs <;> simp [keepSome, hf]

variable [DecidableEq α]

theorem take_commonFront (as bs : List α) :
    as.take (commonFront as bs) = bs.take (commonFront as bs) := by
  induction as generalizing bs with
  | nil => simp [commonFront]
  | cons a as ih =>
    cases bs with
    | nil => simp [commonFront]
    | cons b bs =>
      by_cases h : a = b
      · simp [commonFront, h, ih bs]
      · simp [commonFront, h]

theorem drop_commonEnd (as bs : List α) :
    as.drop (as.length - commonEnd as bs) = bs.drop (bs.length - commonEnd as bs) := by
  have h := congrArg List.reverse (take_commonFront as.reverse bs.reverse)
  rwa [List.take_reverse, List.take_reverse, List.reverse_reverse, List.reverse_reverse] at h

theorem commonFront_comm (as bs : List α) : commonFront as bs = commonFront bs as := by
  induction as generalizing bs with
  | nil => cases bs <;> rfl
  | cons a as ih =>
    cases bs with
    | nil => rfl
    | cons b bs =>
      by_cases h : a = b
      · simp [commonFront, h, ih bs]
      · simp [commonFront, h, Ne.symm h]

theorem commonEnd_comm (as bs : List α) : commonEnd as bs = commonEnd bs as :=
  commonFront_comm as.reverse bs.reverse

/-- A run and the kept values before it, cut at their common end. -/
theorem Same.split_back (ks run : List α) :
    Same [keep ks, add run]
      [keep (ks.take (ks.length - commonEnd ks run)),
        add (ks.drop (ks.length - commonEnd ks run) ++ run.take (run.length - commonEnd ks run)),
        keep (ks.drop (ks.length - commonEnd ks run))] := by
  have h := Same.back (ks.take (ks.length - commonEnd ks run))
    (ks.drop (ks.length - commonEnd ks run)) (run.take (run.length - commonEnd ks run))
  rw [List.take_append_drop] at h
  rwa [drop_commonEnd ks run, List.take_append_drop, ← drop_commonEnd ks run] at h

/-- A run and the kept values behind it, cut at their common front. -/
theorem Same.split_forward (ks run : List α) :
    Same [add run, keep ks]
      [keep (ks.take (commonFront ks run)),
        add (run.drop (commonFront ks run) ++ ks.take (commonFront ks run)),
        keep (ks.drop (commonFront ks run))] := by
  have h := Same.forward (ks.drop (commonFront ks run)) (ks.take (commonFront ks run))
    (run.drop (commonFront ks run))
  rw [List.take_append_drop] at h
  rwa [take_commonFront ks run, List.take_append_drop, ← take_commonFront ks run] at h

theorem same_moveBack (run : List α) (before after : List (Edit α)) :
    Same (moveBack run before after).script (before.reverse ++ add run :: after) := by
  fun_induction moveBack run before after with
  | case1 run after => exact Same.refl _
  | case2 run ks before after n h => exact Same.refl _
  | case3 run ks before after n h passed moved hn ih =>
    have hs := Same.split_back ks run
    have hz : ks.take (ks.length - commonEnd ks run) = [] := by simp [← hn, n]
    rw [hz] at hs
    have hm := (Same.keep_nil.append (Same.refl [add moved, keep passed])).symm.trans hs.symm
    have hk := (Same.refl (before.reverse ++ [add moved])).append (Same.keepBefore passed after)
    refine ih.trans ?_
    simpa using hk.trans (by simpa using hm.inside before.reverse after)
  | case4 run ks before after n h passed moved hn ih =>
    have hs := (Same.split_back ks run).symm
    have hk := (Same.refl (before.reverse ++ [keep (ks.take (ks.length - n)), add moved])).append
      (Same.keepBefore passed after)
    refine ih.trans ?_
    simpa using hk.trans (by simpa using hs.inside before.reverse after)
  | case5 run vs before after ih =>
    refine ih.trans ?_
    simpa using (Same.drop_add vs run).symm.inside before.reverse after
  | case6 run vs before after ih =>
    refine ih.trans ?_
    simpa using (Same.add_add vs run).symm.inside before.reverse after

theorem same_moveForward (before : List (Edit α)) (run : List α) (after : List (Edit α)) :
    Same (moveForward before run after).script (before.reverse ++ add run :: after) := by
  fun_induction moveForward before run after with
  | case1 before run => exact Same.refl _
  | case2 before run ks after n h => exact Same.refl _
  | case3 before run ks after n h passed moved hn ih =>
    have hs := Same.split_forward ks run
    have hz : ks.drop (commonFront ks run) = [] := by simp [← hn, n]
    rw [hz] at hs
    have hm := ((Same.refl [keep passed, add moved]).append Same.keep_nil).symm.trans hs.symm
    have hk := (Same.keepAfter passed before).append (Same.refl (add moved :: after))
    refine ih.trans (hk.trans ?_)
    simpa using hm.inside before.reverse after
  | case4 before run ks after n h passed moved hn ih =>
    have hs := (Same.split_forward ks run).symm
    have hk := (Same.keepAfter passed before).append
      (Same.refl (add moved :: keep (ks.drop n) :: after))
    refine ih.trans (hk.trans ?_)
    simpa using hs.inside before.reverse after
  | case5 before run vs after ih =>
    refine ih.trans ?_
    simpa using (Same.drop_add vs run).inside before.reverse after
  | case6 before run vs after ih =>
    refine ih.trans ?_
    simpa using (Same.add_add run vs).symm.inside before.reverse after

theorem same_place (before : List (Edit α)) (run : List α) (after : List (Edit α)) :
    Same (place before run after).script (before.reverse ++ add run :: after) :=
  (same_moveForward _ _ _).trans (same_moveBack run before after)

/-- Placing the added runs changes neither list, nor what is kept. -/
theorem same_settle (before es : List (Edit α)) :
    Same (settle before es) (before.reverse ++ es) := by
  fun_induction settle before es with
  | case1 before => simpa using Same.refl before.reverse
  | case2 before vs es ih => simpa using ih
  | case3 before vs es ih => simpa using ih
  | case4 before vs es placed ih =>
    refine Same.trans ?_ (same_place before vs es)
    simpa [Cursor.script] using ih

/-! The blocks before runs are moved. -/

theorem flatMap_old_walk (as bs : List α) (rows : List (List Nat)) :
    (walk as bs rows).flatMap old = as := by
  fun_induction walk as bs rows <;> simp_all [old]

theorem flatMap_new_walk (as bs : List α) (rows : List (List Nat)) :
    (walk as bs rows).flatMap new = bs := by
  fun_induction walk as bs rows <;> simp_all [new]

/-- What is left of a list behind the front it has in common with another. -/
def behindFront (as bs : List α) : List α := as.drop (commonFront as bs)

/-- The part of a list between the front and the end it has in common with another. -/
def middle (as bs : List α) : List α :=
  (behindFront as bs).take
    ((behindFront as bs).length - commonEnd (behindFront as bs) (behindFront bs as))

/-- The common end of two lists behind their common front. -/
def ending (as bs : List α) : List α :=
  (behindFront as bs).drop
    ((behindFront as bs).length - commonEnd (behindFront as bs) (behindFront bs as))

theorem front_middle_ending (as bs : List α) :
    as.take (commonFront as bs) ++ (middle as bs ++ ending as bs) = as := by
  rw [middle, ending, List.take_append_drop, behindFront, List.take_append_drop]

theorem ending_comm (as bs : List α) : ending as bs = ending bs as := by
  rw [ending, ending, commonEnd_comm (behindFront bs as)]
  exact drop_commonEnd (behindFront as bs) (behindFront bs as)

theorem front_middle_ending_right (as bs : List α) :
    as.take (commonFront as bs) ++ (middle bs as ++ ending as bs) = bs := by
  rw [take_commonFront, commonFront_comm, ending_comm]
  exact front_middle_ending bs as

/-- The table by which the middles are walked. -/
def guide (as bs : List α) : List (List Nat) :=
  table (as.take (middle as bs).length) (bs.take (middle bs as).length)

theorem trimmed_eq (as bs : List α) :
    trimmed as bs = keepSome (as.take (commonFront as bs))
      ++ (walk (middle as bs) (middle bs as) (guide as bs) ++ keepSome (ending as bs)) := by
  rw [trimmed, List.append_assoc, guide, ending, middle, middle, behindFront, behindFront,
    commonFront_comm bs as, commonEnd_comm (bs.drop _)]

theorem commonFront_nil_right (as : List α) : commonFront as [] = 0 := by
  cases as <;> rfl

/-- Two lists are cut at their common ends if one of them holds values. -/
theorem blocks_eq {as bs : List α} (h : as ≠ [] ∨ bs ≠ []) : blocks as bs = trimmed as bs := by
  cases bs with
  | nil =>
    cases as with
    | nil => simp at h
    | cons a as =>
      simp [blocks, trimmed, commonFront_nil_right, commonEnd, commonFront, keepSome, walk]
  | cons b bs =>
    cases as with
    | nil => simp [blocks, trimmed, commonEnd, commonFront, keepSome, walk]
    | cons a as => rfl

/-- Of two lists without values an empty block is all that is told. -/
theorem same_blocks (as bs : List α) : Same (blocks as bs) (trimmed as bs) := by
  by_cases h : as ≠ [] ∨ bs ≠ []
  · rw [blocks_eq h]
    exact Same.refl _
  · obtain ⟨rfl, rfl⟩ : as = [] ∧ bs = [] := by simpa using h
    constructor <;> simp [blocks, trimmed, commonFront, keepSome, walk, old, new, kept]

theorem same_align (as bs : List α) : Same (align as bs) (trimmed as bs) :=
  (same_settle [] _).trans (same_blocks as bs)

theorem flatMap_old_align (as bs : List α) : (align as bs).flatMap old = as := by
  rw [(same_align as bs).old, trimmed_eq]
  simp only [List.flatMap_append, flatMap_keepSome old rfl, flatMap_old_walk]
  exact front_middle_ending as bs

theorem flatMap_new_align (as bs : List α) : (align as bs).flatMap new = bs := by
  rw [(same_align as bs).new, trimmed_eq]
  simp only [List.flatMap_append, flatMap_keepSome new rfl, flatMap_new_walk]
  exact front_middle_ending_right as bs

/-- An alignment keeps the common front and end, and what the walk keeps between them. -/
theorem flatMap_kept_align (as bs : List α) :
    (align as bs).flatMap kept = as.take (commonFront as bs)
      ++ ((walk (middle as bs) (middle bs as) (guide as bs)).flatMap kept ++ ending as bs) := by
  rw [(same_align as bs).kept, trimmed_eq]
  simp only [List.flatMap_append, flatMap_keepSome kept rfl]
  rfl

end Edit
end ApiSurface
