import ApiSurface.Proofs.AlternatingOperations
import ApiSurface.Proofs.KeptRuns

/-! The shape of the runs of two enumerations. Whatever operations they are put together from,
neighbouring runs differ in kind. Those of an alignment alternate between equalities and gaps, and
so nothing is removed right behind what is added. The kept runs then cut the runs into gaps that are
one rename each: the values of a gap are paired off, and what is left over is only removed or only
added. -/
namespace ApiSurface
namespace Run

variable {α : Type}

def isKept : Run α → Bool
  | kept => true
  | removed _ | added _ => false

def isRemoved : Run α → Bool
  | removed _ => true
  | kept | added _ => false

def isAdded : Run α → Bool
  | added _ => true
  | kept | removed _ => false

def SameKind : Run α → Run α → Prop
  | kept, kept | removed _, removed _ | added _, added _ => True
  | _, _ => False

/-- Runs that cannot be merged: neighbours differ in kind, and an added run never comes right before
a removed one. -/
structure Normal (rs : List (Run α)) : Prop where
  differ : rs.IsChain fun r s => ¬ r.SameKind s
  ordered : rs.IsChain fun r s => ¬ (r.isAdded ∧ s.isRemoved)

theorem normal_cons {r : Run α} {rs : List (Run α)} :
    Normal (r :: rs) ↔
      (∀ s ∈ rs.head?, ¬ r.SameKind s ∧ ¬ (r.isAdded ∧ s.isRemoved)) ∧ Normal rs := by
  constructor
  · rintro ⟨hdiffer, hordered⟩
    obtain ⟨hd, hdiffer⟩ := List.isChain_cons.mp hdiffer
    obtain ⟨ho, hordered⟩ := List.isChain_cons.mp hordered
    exact ⟨fun s hs => ⟨hd s hs, ho s hs⟩, hdiffer, hordered⟩
  · rintro ⟨hhead, hdiffer, hordered⟩
    exact ⟨List.isChain_cons.mpr ⟨fun s hs => (hhead s hs).1, hdiffer⟩,
      List.isChain_cons.mpr ⟨fun s hs => (hhead s hs).2, hordered⟩⟩

theorem Normal.of_append_left {rs ss : List (Run α)} (h : Normal (rs ++ ss)) : Normal rs :=
  ⟨h.differ.left_of_append, h.ordered.left_of_append⟩

theorem Normal.of_append_right {rs ss : List (Run α)} (h : Normal (rs ++ ss)) : Normal ss :=
  ⟨h.differ.right_of_append, h.ordered.right_of_append⟩

@[simp] theorem sameKind_kept (s : Run α) : kept.SameKind s ↔ s.isKept := by
  cases s <;> simp [SameKind, isKept]

@[simp] theorem sameKind_removed (vs : List α) (s : Run α) :
    (removed vs).SameKind s ↔ s.isRemoved := by
  cases s <;> simp [SameKind, isRemoved]

@[simp] theorem sameKind_added (vs : List α) (s : Run α) :
    (added vs).SameKind s ↔ s.isAdded := by
  cases s <;> simp [SameKind, isAdded]

theorem SameKind.symm {r s : Run α} (h : r.SameKind s) : s.SameKind r := by
  cases r <;> cases s <;> exact h

section Push

variable {old new vs : List α} {rs : List (Run α)}

/-! Whatever is pushed, it is merged into a run of its kind. -/

theorem differ_pushKept (h : rs.IsChain fun r s => ¬ r.SameKind s) :
    (pushKept rs).IsChain fun r s => ¬ r.SameKind s := by
  cases rs with
  | nil => exact List.isChain_singleton _
  | cons r rs => cases r <;> simp_all [pushKept, isKept]

theorem differ_pushRemoved (h : rs.IsChain fun r s => ¬ r.SameKind s) :
    (pushRemoved vs rs).IsChain fun r s => ¬ r.SameKind s := by
  cases rs with
  | nil => exact List.isChain_singleton _
  | cons r rs => cases r <;> simp_all [pushRemoved, isRemoved, List.isChain_cons]

theorem differ_pushAdded (h : rs.IsChain fun r s => ¬ r.SameKind s) :
    (pushAdded vs rs).IsChain fun r s => ¬ r.SameKind s := by
  cases rs with
  | nil => exact List.isChain_singleton _
  | cons r rs => cases r <;> simp_all [pushAdded, isAdded, List.isChain_cons]

theorem differ_push (o : Operation) (h : rs.IsChain fun r s => ¬ r.SameKind s) :
    (push old new rs o).IsChain fun r s => ¬ r.SameKind s := by
  cases o with
  | equal => exact differ_pushKept h
  | delete s => exact differ_pushRemoved h
  | insert t => exact differ_pushAdded h
  | replace s t => exact differ_pushAdded (differ_pushRemoved h)

/-- Neighbouring runs differ in kind, whatever operations they are put together from. -/
theorem differ_ofOperations (old new : List α) (os : List Operation) :
    (ofOperations old new os).IsChain fun r s => ¬ r.SameKind s := by
  have hfold : ∀ rs : List (Run α), (rs.IsChain fun r s => ¬ r.SameKind s) →
      (os.foldl (push old new) rs).IsChain fun r s => ¬ r.SameKind s := by
    induction os with
    | nil => exact fun rs h => h
    | cons o os ih => exact fun rs h => ih _ (differ_push o h)
  rw [ofOperations, List.isChain_reverse]
  exact (hfold [] List.isChain_nil).imp fun r s h hs => h hs.symm

/-! The last run tells what operation came last. -/

/-- No removed run has an added one before it, and the last run is a kept one if and only if an
equality came last. -/
structure Ordered (last : Option Operation) (rs : List (Run α)) : Prop where
  chain : rs.IsChain fun s r => ¬ (r.isAdded ∧ s.isRemoved)
  last : rs.head?.map isKept = last.map Operation.isEqual

/-- Another operation follows if it is no equality behind an equality, and the other way round. -/
theorem Ordered.push {last : Option Operation} (h : Ordered last rs) {o : Operation}
    (ho : ∀ o' ∈ last, o'.isEqual ≠ o.isEqual) : Ordered (some o) (push old new rs o) := by
  cases rs with
  | nil => cases o <;> exact ⟨by simp [Run.push, pushKept, pushRemoved, pushAdded, isAdded], rfl⟩
  | cons r rs =>
    have hr : r.isKept ≠ o.isEqual := by
      obtain ⟨o', ho', hlast⟩ := Option.map_eq_some_iff.mp h.last.symm
      rw [← hlast]
      exact ho o' ho'
    have hchain := h.chain
    cases o with
    | equal =>
      have hpush : pushKept (r :: rs) = kept :: r :: rs := by
        refine pushKept_of_ne ?_
        rintro rs' ⟨⟩
        exact hr rfl
      rw [Run.push, hpush]
      exact ⟨List.isChain_cons_cons.mpr ⟨by simp [isRemoved], hchain⟩, rfl⟩
    | delete _ | insert _ | replace _ _ =>
      cases r with
      | kept =>
        exact ⟨by simpa [Run.push, pushRemoved, pushAdded, isAdded, isRemoved] using hchain, rfl⟩
      | removed | added => exact absurd rfl hr

theorem ordered_foldl_push {os : List Operation} (h : Operation.Alternating os)
    {last : Option Operation} (hrs : Ordered last rs)
    (ho : ∀ o' ∈ last, ∀ o ∈ os.head?, o'.isEqual ≠ o.isEqual) :
    (os.foldl (Run.push old new) rs).IsChain fun s r => ¬ (r.isAdded ∧ s.isRemoved) := by
  induction os generalizing last rs with
  | nil => exact hrs.chain
  | cons o os ih =>
    obtain ⟨hnext, halternating⟩ := List.isChain_cons.mp h
    refine ih halternating (hrs.push fun o' ho' => ho o' ho' o rfl) ?_
    rintro _ ⟨⟩
    exact hnext

/-- Nothing is removed right behind what is added, if equalities and gaps alternate. -/
theorem ordered_ofOperations (old new : List α) {os : List Operation}
    (h : Operation.Alternating os) :
    (ofOperations old new os).IsChain fun r s => ¬ (r.isAdded ∧ s.isRemoved) := by
  have hstart : Ordered none ([] : List (Run α)) := ⟨List.isChain_nil, rfl⟩
  rw [ofOperations, List.isChain_reverse]
  exact ordered_foldl_push h hstart (by simp)

theorem normal_ofOperations (old new : List α) {os : List Operation}
    (h : Operation.Alternating os) : Normal (ofOperations old new os) :=
  ⟨differ_ofOperations old new os, ordered_ofOperations old new h⟩

end Push

/-! Gaps. -/

/-- The pieces into which kept runs cut a list of runs. -/
def gaps (rs : List (Run α)) : List (List (Run α)) := rs.splitOnP isKept

theorem gaps_eq_singleton {rs : List (Run α)} (h : kept ∉ rs) : gaps rs = [rs] := by
  apply List.splitOnP_eq_singleton
  intro r hr
  cases r with
  | kept => exact absurd hr h
  | removed | added => rfl

theorem gaps_append_kept {g : List (Run α)} (h : kept ∉ g) (rs : List (Run α)) :
    gaps (g ++ kept :: rs) = g :: gaps rs := by
  refine List.splitOnP_append_cons_of_forall_mem ?_ _ rfl _
  intro r hr
  cases r with
  | kept => exact absurd hr h
  | removed | added => rfl

/-- A list of runs is cut at its first kept run, if it has one. -/
theorem cut_induction {P : List (Run α) → Prop} (hgap : ∀ g, kept ∉ g → P g)
    (hcut : ∀ g rs, kept ∉ g → P rs → P (g ++ kept :: rs)) (rs : List (Run α)) : P rs := by
  induction hn : rs.length using Nat.strong_induction_on generalizing rs with
  | _ n ih =>
    by_cases hk : kept ∈ rs
    · obtain ⟨g, rest, rfl, hg⟩ := List.eq_append_cons_of_mem hk
      refine hcut g rest hg (ih rest.length ?_ rest rfl)
      simp only [List.length_append, List.length_cons] at hn
      omega
    · exact hgap rs hk

/-- The runs of one gap, of which there is at most one of each kind. -/
def gapRuns (ds as : Option (List α)) : List (Run α) :=
  ds.toList.map removed ++ as.toList.map added

/-- Only a kept run can stand behind an added one. -/
theorem Normal.eq_nil_of_added {as : List α} {rs : List (Run α)} (h : Normal (added as :: rs))
    (hk : kept ∉ rs) : rs = [] := by
  cases rs with
  | nil => rfl
  | cons s rs =>
    have hnext := (normal_cons.mp h).1 s rfl
    cases s with
    | kept => exact absurd List.mem_cons_self hk
    | removed | added => simp [isAdded, isRemoved] at hnext

/-- Without kept runs there is at most one removed run, and at most one added run behind it. -/
theorem exists_eq_gapRuns {g : List (Run α)} (h : Normal g) (hk : kept ∉ g) :
    ∃ ds as, g = gapRuns ds as := by
  cases g with
  | nil => exact ⟨none, none, rfl⟩
  | cons r rs =>
    obtain ⟨hnext, hrs⟩ := normal_cons.mp h
    have hk' : kept ∉ rs := fun hmem => hk (List.mem_cons_of_mem _ hmem)
    cases r with
    | kept => exact absurd List.mem_cons_self hk
    | added as =>
      obtain rfl := h.eq_nil_of_added hk'
      exact ⟨none, some as, rfl⟩
    | removed ds =>
      cases rs with
      | nil => exact ⟨some ds, none, rfl⟩
      | cons s rs =>
        cases s with
        | kept => exact absurd List.mem_cons_self hk'
        | removed => simp [isRemoved] at hnext
        | added as =>
          obtain rfl := hrs.eq_nil_of_added fun hmem => hk' (List.mem_cons_of_mem _ hmem)
          exact ⟨some ds, some as, rfl⟩

/-- The pieces of runs in normal form are gaps. -/
theorem forall_mem_gaps {rs : List (Run α)} (h : Normal rs) :
    ∀ g ∈ gaps rs, ∃ ds as, g = gapRuns ds as := by
  induction rs using cut_induction with
  | hgap g hk =>
    rw [gaps_eq_singleton hk]
    exact List.forall_mem_singleton.mpr (exists_eq_gapRuns h hk)
  | hcut g rs hk ih =>
    rw [gaps_append_kept hk]
    exact List.forall_mem_cons.mpr
      ⟨exists_eq_gapRuns h.of_append_left hk, ih (normal_cons.mp h.of_append_right).2⟩

end Run

namespace Edit

variable {α : Type}

/-- The run that a block is read as. -/
def run : Edit α → Run α
  | keep _ => .kept
  | drop vs => .removed vs
  | add vs => .added vs

/-- The blocks of one gap. -/
def gapBlocks (ds as : List α) : List (Edit α) :=
  (if ds.isEmpty then [] else [drop ds]) ++ (if as.isEmpty then [] else [add as])

/-- A script with the same runs as some blocks, each block of which is as long as it can be. -/
def merged (ds as : List α) : List (Edit α) → List (Edit α)
  | [] => gapBlocks ds as
  | keep vs :: es => gapBlocks ds as ++ keepBefore vs (merged [] [] es)
  | drop vs :: es => merged (ds ++ vs) as es
  | add vs :: es => merged ds (as ++ vs) es

theorem map_run_gapBlocks (ds as : List α) (rest : List (Run α)) :
    (gapBlocks ds as).map run ++ rest = Run.gap ds as rest := by
  cases ds <;> cases as <;> rfl

theorem map_run_keepBefore (vs : List α) (es : List (Edit α)) :
    (keepBefore vs es).map run = Run.pushKept (es.map run) := by
  cases es with
  | nil => rfl
  | cons e es => cases e <;> rfl

theorem map_run_merged (ds as : List α) (es : List (Edit α)) :
    (merged ds as es).map run = Run.collect ds as es := by
  fun_induction merged ds as es with
  | case1 ds as => rw [← List.append_nil (List.map _ _), map_run_gapBlocks, Run.collect]
  | case2 ds as vs es ih =>
    rw [List.map_append, map_run_gapBlocks, map_run_keepBefore, ih, Run.collect]
  | case3 ds as vs es ih => exact ih
  | case4 ds as vs es ih => exact ih

theorem same_gapBlocks (ds as : List α) : Same (gapBlocks ds as) [drop ds, add as] := by
  cases ds <;> cases as <;> constructor <;> rfl

/-- Merging blocks changes neither list, nor what is kept. -/
theorem same_merged (ds as : List α) (es : List (Edit α)) :
    Same (merged ds as es) (drop ds :: add as :: es) := by
  fun_induction merged ds as es with
  | case1 ds as => exact same_gapBlocks ds as
  | case2 ds as vs es ih =>
    have hkeep := (Same.keepBefore vs (merged [] [] es)).trans ((Same.refl [keep vs]).append ih)
    refine ((same_gapBlocks ds as).append hkeep).trans ?_
    constructor <;> simp [Edit.old, Edit.new, Edit.kept]
  | case3 ds as vs es ih =>
    refine ih.trans ?_
    constructor <;> simp [Edit.old, Edit.new, Edit.kept]
  | case4 ds as vs es ih =>
    refine ih.trans ?_
    constructor <;> simp [Edit.old, Edit.new, Edit.kept]

theorem solid_gapBlocks (ds as : List α) : Solid (gapBlocks ds as) := by
  cases ds <;> cases as <;> simp [gapBlocks, Solid, values]

theorem solid_merged (ds as : List α) {es : List (Edit α)} (hs : Solid es) :
    Solid (merged ds as es) := by
  fun_induction merged ds as es with
  | case1 ds as => exact solid_gapBlocks ds as
  | case2 ds as vs es ih =>
    obtain ⟨hvs, hes⟩ := solid_cons.mp hs
    exact solid_append.mpr ⟨solid_gapBlocks ds as, solid_keepBefore hvs (ih hes)⟩
  | case3 ds as vs es ih => exact ih (solid_cons.mp hs).2
  | case4 ds as vs es ih => exact ih (solid_cons.mp hs).2

end Edit

namespace Comparison

open Edit Declaration

variable (oldName newName : String)

/-- Kept values part the records. -/
theorem ofRuns_append_kept (rs ss : List (Run String)) :
    ofRuns oldName newName (rs ++ .kept :: ss) =
      ofRuns oldName newName rs ++ ofRuns oldName newName ss := by
  fun_induction ofRuns oldName newName rs with
  | case1 => rfl
  | case2 ds as rest ih => simp only [List.cons_append, ofRuns, ih, List.append_assoc]
  | case3 ds rest hrest ih =>
    -- what follows a removed run by itself still is no added run
    have hnext : ∀ as rest', rest ++ .kept :: ss = .added as :: rest' → False := by
      intro as rest' h
      cases rest with
      | nil => cases h
      | cons r rest => exact hrest as rest (by rw [(List.cons.inj h).1])
    rw [List.cons_append, ofRuns.eq_3 _ _ _ _ hnext, ih, List.append_assoc]
  | case4 as rest ih => simp only [List.cons_append, ofRuns, ih, List.append_assoc]
  | case5 rest ih => simp only [List.cons_append, ofRuns, ih]

/-- The records are those of the gaps, one after the other. -/
theorem ofRuns_eq_flatMap_gaps (rs : List (Run String)) :
    ofRuns oldName newName rs = (Run.gaps rs).flatMap (ofRuns oldName newName) := by
  induction rs using Run.cut_induction with
  | hgap g hk => rw [Run.gaps_eq_singleton hk, List.flatMap_singleton]
  | hcut g rs hk ih => rw [Run.gaps_append_kept hk, List.flatMap_cons, ofRuns_append_kept, ih]

/-- Values that are paired off leave some over on one side only. -/
theorem not_removed_and_added_pairOff (os ns : List String) :
    ¬ ((∃ g d o, Change.removed g d o ∈ pairOff oldName newName os ns) ∧
      ∃ g d n, Change.added g d n ∈ pairOff oldName newName os ns) := by
  rintro ⟨⟨g, d, o, hremoved⟩, g', d', n, hadded⟩
  have hold : .removed g d o ∈ (os.drop ns.length).map fun o =>
      Change.removed oldName "" (enumValue oldName o) := by
    simpa [pairOff, ← List.map_uncurry_zip_eq_zipWith, -List.map_drop] using hremoved
  have hnew : .added g' d' n ∈ (ns.drop os.length).map fun n =>
      Change.added newName "" (enumValue newName n) := by
    simpa [pairOff, ← List.map_uncurry_zip_eq_zipWith, -List.map_drop] using hadded
  have hlt := List.length_pos_of_mem hold
  have hlt' := List.length_pos_of_mem hnew
  simp only [List.length_map, List.length_drop] at hlt hlt'
  omega

theorem ofRuns_gapRuns (ds as : Option (List String)) :
    ofRuns oldName newName (Run.gapRuns ds as) =
      pairOff oldName newName (ds.getD []) (as.getD []) := by
  cases ds <;> cases as <;> simp [Run.gapRuns, ofRuns]

/-- The runs of two enumerations are those of a script from the sorted old values to the sorted new
ones. It keeps what the alignment keeps, and no block of it is empty if there are values at all. -/
theorem exists_script (old new : List String) :
    ∃ es : List (Edit String), es.map run = enumRuns old new ∧ (old ≠ [] ∨ new ≠ [] → Solid es) ∧
      es.flatMap Edit.old = sorted old ∧ es.flatMap Edit.new = sorted new ∧
      es.flatMap kept = keptValues old new := by
  by_cases h : old ≠ [] ∨ new ≠ []
  · have hsolid : Solid (align (sorted old) (sorted new)) :=
      solid_align (h.imp (mt sorted_eq_nil.mp) (mt sorted_eq_nil.mp))
    have hsame := same_merged [] [] (align (sorted old) (sorted new))
    refine ⟨merged [] [] (align (sorted old) (sorted new)), ?_, ?_, ?_, ?_, ?_⟩
    · rw [map_run_merged, enumRuns_eq_collect h]
    · exact fun _ => solid_merged [] [] hsolid
    · exact hsame.old.trans (flatMap_old_align _ _)
    · exact hsame.new.trans (flatMap_new_align _ _)
    · exact hsame.kept
  · obtain ⟨rfl, rfl⟩ : old = [] ∧ new = [] := by simpa using h
    refine ⟨[drop []], ?_, fun hne => absurd hne h, ?_, ?_, ?_⟩
    · exact enumRuns_nil.symm
    · exact (sorted_eq_nil.mpr rfl).symm
    · exact (sorted_eq_nil.mpr rfl).symm
    · rw [keptValues, sorted_eq_nil.mpr rfl, align_nil]

/-- The runs of two enumerations are in normal form, and they are those of a script in which nothing
is kept by an empty block. The records are told gap by gap: each gap is one rename, and none has
values that are only removed next to values that are only added. -/
theorem normal_enumRuns (old new : List String) :
    Run.Normal (enumRuns old new) ∧
      (∃ es : List (Edit String), es.map run = enumRuns old new ∧ (old ≠ [] ∨ new ≠ [] → Solid es) ∧
        es.flatMap Edit.old = sorted old ∧ es.flatMap Edit.new = sorted new ∧
        es.flatMap kept = keptValues old new) ∧
      compareEnumValues oldName old newName new =
        (Run.gaps (enumRuns old new)).flatMap (ofRuns oldName newName) ∧
      ∀ g ∈ Run.gaps (enumRuns old new),
        (∃ os ns, g = Run.gapRuns os ns ∧
          ofRuns oldName newName g = pairOff oldName newName (os.getD []) (ns.getD [])) ∧
        ¬ ((∃ e d o, Change.removed e d o ∈ ofRuns oldName newName g) ∧
          ∃ e d n, Change.added e d n ∈ ofRuns oldName newName g) := by
  have hnormal : Run.Normal (enumRuns old new) :=
    Run.normal_ofOperations _ _ (alternating_operations (sorted old) (sorted new))
  refine ⟨hnormal, exists_script old new, ofRuns_eq_flatMap_gaps oldName newName _, fun g hg => ?_⟩
  obtain ⟨os, ns, rfl⟩ := Run.forall_mem_gaps hnormal g hg
  refine ⟨⟨os, ns, rfl, ofRuns_gapRuns oldName newName os ns⟩, ?_⟩
  rw [ofRuns_gapRuns]
  exact not_removed_and_added_pairOff oldName newName _ _

/-- Two values are replaced by one, and the last value is kept. -/
example : enumRuns ["A", "B", "Z"] ["C", "Z"] =
    [.removed ["A", "B"], .added ["C"], .kept] := by cbv

end Comparison
end ApiSurface
