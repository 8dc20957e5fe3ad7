import ApiSurface.Comparison.EnumValues
import ApiSurface.Proofs.EditScript

/-! What the operations of an alignment are read as. No block of an alignment is empty, unless both
lists are, and the runs that are put together from its operations are those that are collected from
its blocks: before each kept block what has been dropped and then what has been added. -/
namespace ApiSurface
namespace Edit

variable {α : Type}

/-- The values of a block. -/
def values : Edit α → List α
  | keep vs | drop vs | add vs => vs

/-- No block is empty. -/
def Solid (es : List (Edit α)) : Prop := ∀ e ∈ es, e.values ≠ []

theorem solid_nil : Solid ([] : List (Edit α)) := List.forall_mem_nil _

theorem solid_cons {e : Edit α} {es : List (Edit α)} :
    Solid (e :: es) ↔ e.values ≠ [] ∧ Solid es := List.forall_mem_cons

theorem solid_append {es fs : List (Edit α)} : Solid (es ++ fs) ↔ Solid es ∧ Solid fs :=
  List.forall_mem_append

theorem solid_keepSome (vs : List α) : Solid (keepSome vs) := by
  cases vs <;> simp [keepSome, Solid, values]

theorem solid_keepBefore {vs : List α} (h : vs ≠ []) {es : List (Edit α)} (hs : Solid es) :
    Solid (keepBefore vs es) := by
  unfold keepBefore
  split
  · exact solid_cons.mpr ⟨by simp [values, h], (solid_cons.mp hs).2⟩
  · exact solid_cons.mpr ⟨h, hs⟩

theorem solid_keepAfter {vs : List α} (h : vs ≠ []) {es : List (Edit α)} (hs : Solid es) :
    Solid (keepAfter vs es) := by
  unfold keepAfter
  split
  · exact solid_cons.mpr ⟨by simp [values, h], (solid_cons.mp hs).2⟩
  · exact solid_cons.mpr ⟨h, hs⟩

/-- Neither an added run is empty nor a block around it. -/
structure Cursor.Solid (c : Cursor α) : Prop where
  run : c.run ≠ []
  before : Edit.Solid c.before
  after : Edit.Solid c.after

variable [DecidableEq α]

/-- A run that moves back takes kept values along only if there are some, and leaves some. -/
theorem solid_moveBack {run : List α} {before after : List (Edit α)} (hr : run ≠ [])
    (hb : Solid before) (ha : Solid after) : (moveBack run before after).Solid := by
  fun_induction moveBack run before after with
  | case1 => exact ⟨hr, hb, ha⟩
  | case2 => exact ⟨hr, hb, ha⟩
  | case3 run ks before after n h passed moved hn ih =>
    have hp : passed ≠ [] := by
      rw [← List.length_pos_iff, List.length_drop]
      omega
    exact ih (by simp [moved, hp]) (solid_cons.mp hb).2 (solid_keepBefore hp ha)
  | case4 run ks before after n h passed moved hn ih =>
    have hle : n ≤ ks.length := commonEnd_le_left ks run
    have hp : passed ≠ [] := by
      rw [← List.length_pos_iff, List.length_drop]
      omega
    have hk : ks.take (ks.length - n) ≠ [] := by
      rw [← List.length_pos_iff, List.length_take]
      omega
    exact ih (by simp [moved, hp]) (solid_cons.mpr ⟨hk, (solid_cons.mp hb).2⟩)
      (solid_keepBefore hp ha)
  | case5 run vs before after ih =>
    obtain ⟨hv, hb⟩ := solid_cons.mp hb
    exact ih hr hb (solid_cons.mpr ⟨hv, ha⟩)
  | case6 run vs before after ih => exact ih (by simp [hr]) (solid_cons.mp hb).2 ha

theorem solid_moveForward {before : List (Edit α)} {run : List α} {after : List (Edit α)}
    (hr : run ≠ []) (hb : Solid before) (ha : Solid after) :
    (moveForward before run after).Solid := by
  fun_induction moveForward before run after with
  | case1 => exact ⟨hr, hb, ha⟩
  | case2 => exact ⟨hr, hb, ha⟩
  | case3 before run ks after n h passed moved hn ih =>
    have hp : passed ≠ [] := by
      rw [← List.length_pos_iff, List.length_take]
      omega
    exact ih (by simp [moved, hp]) (solid_keepAfter hp hb) (solid_cons.mp ha).2
  | case4 before run ks after n h passed moved hn ih =>
    have hle : n ≤ ks.length := commonFront_le_left ks run
    have hp : passed ≠ [] := by
      rw [← List.length_pos_iff, List.length_take]
      omega
    have hk : ks.drop n ≠ [] := by
      rw [← List.length_pos_iff, List.length_drop]
      omega
    exact ih (by simp [moved, hp]) (solid_keepAfter hp hb)
      (solid_cons.mpr ⟨hk, (solid_cons.mp ha).2⟩)
  | case5 before run vs after ih =>
    obtain ⟨hv, ha⟩ := solid_cons.mp ha
    exact ih hr (solid_cons.mpr ⟨hv, hb⟩) ha
  | case6 before run vs after ih => exact ih (by simp [hr]) hb (solid_cons.mp ha).2

theorem solid_place {before : List (Edit α)} {run : List α} {after : List (Edit α)}
    (hr : run ≠ []) (hb : Solid before) (ha : Solid after) : (place before run after).Solid := by
  have h := solid_moveBack hr hb ha
  exact solid_moveForward h.run h.before h.after

theorem solid_settle {before es : List (Edit α)} (hb : Solid before) (he : Solid es) :
    Solid (settle before es) := by
  fun_induction settle before es with
  | case1 before => simpa [Solid] using hb
  | case2 before vs es ih =>
    obtain ⟨hv, he⟩ := solid_cons.mp he
    exact ih (solid_cons.mpr ⟨hv, hb⟩) he
  | case3 before vs es ih =>
    obtain ⟨hv, he⟩ := solid_cons.mp he
    exact ih (solid_cons.mpr ⟨hv, hb⟩) he
  | case4 before vs es placed ih =>
    obtain ⟨hv, he⟩ := solid_cons.mp he
    have hp := solid_place hv hb he
    exact ih (solid_cons.mpr ⟨hp.run, hp.before⟩) hp.after

theorem solid_walk (as bs : List α) (rows : List (List Nat)) : Solid (walk as bs rows) := by
  fun_induction walk as bs rows <;> simp_all [Solid, values]

/-- An alignment has empty blocks only if there are no values at all. -/
theorem solid_align {as bs : List α} (h : as ≠ [] ∨ bs ≠ []) : Solid (align as bs) := by
  refine solid_settle solid_nil ?_
  rw [blocks_eq h, trimmed_eq, solid_append, solid_append]
  exact ⟨solid_keepSome _, solid_walk _ _ _, solid_keepSome _⟩

theorem align_nil : align ([] : List α) [] = [drop []] := by
  simp [align, blocks, settle]

end Edit

namespace Run

variable {α : Type}

/-! Runs from the front. -/

/-- The runs of one gap: what is removed comes before what is added. -/
def gap (dropped added : List α) (rest : List (Run α)) : List (Run α) :=
  (if dropped.isEmpty then [] else [Run.removed dropped])
    ++ (if added.isEmpty then [] else [Run.added added]) ++ rest

/-- The runs of some blocks, with what the current gap holds so far. -/
def collect (dropped added : List α) : List (Edit α) → List (Run α)
  | [] => gap dropped added []
  | .keep _ :: es => gap dropped added (pushKept (collect [] [] es))
  | .drop vs :: es => collect (dropped ++ vs) added es
  | .add vs :: es => collect dropped (added ++ vs) es

@[simp] theorem gap_nil_nil (rest : List (Run α)) : gap [] [] rest = rest := rfl

theorem exists_pushKept_eq (rs : List (Run α)) : ∃ rs', pushKept rs = kept :: rs' := by
  unfold pushKept
  split
  · exact ⟨_, rfl⟩
  · exact ⟨_, rfl⟩

theorem pushKept_of_ne {rs : List (Run α)} (h : ∀ rs', rs ≠ kept :: rs') :
    pushKept rs = kept :: rs := by
  unfold pushKept
  split
  · next rs' => exact absurd rfl (h rs')
  · rfl

@[simp] theorem pushKept_pushKept (rs : List (Run α)) : pushKept (pushKept rs) = pushKept rs := by
  obtain ⟨rs', h⟩ := exists_pushKept_eq rs
  rw [h, pushKept]

/-- Kept values in front of a gap are a run of their own. -/
theorem pushKept_gap {ds as : List α} (h : ds ≠ [] ∨ as ≠ []) (rest : List (Run α)) :
    pushKept (gap ds as rest) = kept :: gap ds as rest := by
  cases ds with
  | nil =>
    cases as with
    | nil => simp at h
    | cons a as => rfl
  | cons d ds => rfl

theorem pushKept_collect {ds as : List α} (h : ds ≠ [] ∨ as ≠ []) (es : List (Edit α)) :
    pushKept (collect ds as es) = kept :: collect ds as es := by
  fun_induction collect ds as es with
  | case1 ds as => exact pushKept_gap h _
  | case2 ds as vs es ih => exact pushKept_gap h _
  | case3 ds as vs es ih => exact ih (h.imp_left fun hd => by simp [hd])
  | case4 ds as vs es ih => exact ih (h.imp_right fun ha => by simp [ha])

end Run

/-! Parts of the lists. -/

namespace Span

variable {α : Type} {s : Span} {whole vs rest : List α} {n : Nat}

theorem slice_extend (s : Span) (whole : List α) (n : Nat) :
    (s.extend n).slice whole = s.slice whole ++ (whole.drop (s.start + s.length)).take n := by
  rw [slice, slice, extend, List.take_add, List.drop_drop]

/-- Values that have come up to some place of a list, and the part of it that they are. -/
inductive EndsAt (whole : List α) (n : Nat) : Option Span → List α → Prop
  | nothing : EndsAt whole n none []
  | part {s : Span} (ends : s.start + s.length = n) (nonempty : s.slice whole ≠ []) :
      EndsAt whole n (some s) (s.slice whole)

theorem EndsAt.eq_none {s? : Option Span} (h : EndsAt whole n s? []) : s? = none := by
  generalize hv : [] = vs at h
  cases h with
  | nothing => rfl
  | part _ hs => exact absurd hv.symm hs

/-- The part goes on with the values that come next. -/
theorem EndsAt.extend {s? : Option Span} (h : EndsAt whole n s? vs) {ws : List α}
    (hw : whole.drop n = ws ++ rest) (hne : ws ≠ []) :
    EndsAt whole (n + ws.length) (some ((s?.getD ⟨n, 0⟩).extend ws.length)) (vs ++ ws) := by
  have hnext : ∀ s : Span, s.start + s.length = n →
      (s.extend ws.length).slice whole = s.slice whole ++ ws := by
    intro s hs
    rw [slice_extend, hs, hw, List.take_left]
  cases h with
  | nothing =>
    have hs := hnext ⟨n, 0⟩ rfl
    have h0 : Span.slice ⟨n, 0⟩ whole = [] := by simp [slice]
    rw [← h0, ← hs]
    refine .part ?_ ?_
    · simp [Span.extend]
    · simpa [hs, h0] using hne
  | @part s hends hs =>
    rw [← hnext s hends]
    refine .part ?_ ?_
    · simp only [Option.getD_some, Span.extend]
      omega
    · simp [hnext s hends, hs]

end Span

namespace Pending

open Run

variable {α : Type} {old new ds as : List α} {p : Pending} {es : List (Edit α)}

/-- What is pending in front of some blocks: it has come to the place of both lists where they go
on, and has dropped and added some values since the last kept ones. -/
structure Holds (old new : List α) (p : Pending) (ds as : List α) (es : List (Edit α)) : Prop where
  oldRest : old.drop p.oldIndex = es.flatMap Edit.old
  newRest : new.drop p.newIndex = es.flatMap Edit.new
  deleted : Span.EndsAt old p.oldIndex p.deleted ds
  inserted : Span.EndsAt new p.newIndex p.inserted as

theorem holds_start (es : List (Edit α)) :
    Holds (es.flatMap Edit.old) (es.flatMap Edit.new) start [] [] es :=
  ⟨List.drop_zero, List.drop_zero, .nothing, .nothing⟩

theorem Holds.keep {vs : List α} (h : Holds old new p ds as (.keep vs :: es)) :
    Holds old new (p.keep vs.length) [] [] es := by
  refine ⟨?_, ?_, .nothing, .nothing⟩
  · rw [Pending.keep, ← List.drop_drop, h.oldRest]
    simp [Edit.old]
  · rw [Pending.keep, ← List.drop_drop, h.newRest]
    simp [Edit.new]

theorem Holds.drop {vs : List α} (h : Holds old new p ds as (.drop vs :: es)) (hv : vs ≠ []) :
    Holds old new (p.drop vs.length) (ds ++ vs) as es := by
  refine ⟨?_, h.newRest, h.deleted.extend h.oldRest hv, h.inserted⟩
  rw [Pending.drop, ← List.drop_drop, h.oldRest]
  simp [Edit.old]

theorem Holds.add {vs : List α} (h : Holds old new p ds as (.add vs :: es)) (hv : vs ≠ []) :
    Holds old new (p.add vs.length) ds (as ++ vs) es := by
  refine ⟨h.oldRest, ?_, h.deleted, h.inserted.extend h.newRest hv⟩
  rw [Pending.add, ← List.drop_drop, h.newRest]
  simp [Edit.new]

theorem foldl_flushEqual (he : p.equal) {rs : List (Run α)} (hrs : ∀ rs', rs ≠ kept :: rs') :
    p.flushEqual.foldl (push old new) rs = kept :: rs := by
  rw [flushEqual, if_pos he, List.foldl_cons, List.foldl_nil, push, pushKept_of_ne hrs]

theorem flushEqual_eq_nil (he : p.equal = false) : p.flushEqual = [] := by
  rw [flushEqual, if_neg (by simp [he])]

/-- The gap is told behind kept values, or in front of everything. -/
theorem Holds.foldl_flushGap (h : Holds old new p ds as es) {rs : List (Run α)}
    (hrs : rs = [] ∨ ∃ rs', rs = kept :: rs') :
    p.flushGap.foldl (push old new) rs = (gap ds as []).reverse ++ rs := by
  have hd := h.deleted
  have ha := h.inserted
  unfold flushGap
  generalize p.deleted = d? at hd ⊢
  generalize p.inserted = i? at ha ⊢
  cases hd with
  | nothing =>
    cases ha with
    | nothing => rfl
    | part _ hi => obtain rfl | ⟨rs', rfl⟩ := hrs <;> simp [push, pushAdded, gap, hi]
  | part _ hd =>
    cases ha with
    | nothing => obtain rfl | ⟨rs', rfl⟩ := hrs <;> simp [push, pushRemoved, gap, hd]
    | part _ hi =>
      obtain rfl | ⟨rs', rfl⟩ := hrs <;> simp [push, pushRemoved, pushAdded, gap, hd, hi]

/-- The runs told so far, in reverse, end where a gap may be told. -/
def Opens (rs : List (Run α)) (ds as : List α) : Prop :=
  rs = [] ∨ (∃ rs', rs = kept :: rs') ∧ (ds ≠ [] ∨ as ≠ [])

theorem Opens.append {rs : List (Run α)} (h : Opens rs ds as) {vs ws : List α}
    (hne : vs ≠ [] ∨ ws ≠ []) : Opens rs (ds ++ vs) (as ++ ws) := by
  obtain rfl | ⟨hk, -⟩ := h
  · exact .inl rfl
  · refine .inr ⟨hk, hne.imp ?_ ?_⟩
    · intro hv
      simp [hv]
    · intro hw
      simp [hw]

/-- When the gap has been told, no kept run is the last one. -/
theorem Opens.gap_ne_kept {rs : List (Run α)} (h : Opens rs ds as) (rs' : List (Run α)) :
    (gap ds as []).reverse ++ rs ≠ kept :: rs' := by
  cases as with
  | cons a as => simp [gap]
  | nil =>
    cases ds with
    | cons d ds => simp [gap]
    | nil =>
      obtain rfl : rs = [] := by simpa [Opens] using h
      simp

theorem Holds.flushGap_eq_nil (h : Holds old new p [] [] es) : p.flushGap = [] := by
  rw [flushGap, h.deleted.eq_none, h.inserted.eq_none]

/-- The runs of the blocks that follow are told behind those told so far, which are given in
reverse. Either kept values are pending, with nothing in the gap, or there is only the gap. -/
structure TellsRuns (old new : List α) (es : List (Edit α)) : Prop where
  behindKept : ∀ {p : Pending} {rs : List (Run α)}, Holds old new p [] [] es → p.equal →
    (∀ rs', rs ≠ kept :: rs') →
    ((p.operations es).foldl (push old new) rs).reverse = rs.reverse ++ pushKept (collect [] [] es)
  inGap : ∀ {p : Pending} {ds as : List α} {rs : List (Run α)}, Holds old new p ds as es →
    p.equal = false → Opens rs ds as →
    ((p.operations es).foldl (push old new) rs).reverse = rs.reverse ++ collect ds as es

theorem tellsRuns_nil : TellsRuns old new [] where
  behindKept {p rs} h he hrs := by
    rw [operations, h.flushGap_eq_nil, List.append_nil, foldl_flushEqual he hrs, List.reverse_cons,
      collect, gap_nil_nil, pushKept]
    simp
  inGap {p ds as rs} h he hrs := by
    rw [operations, flushEqual_eq_nil he, List.nil_append,
      h.foldl_flushGap (hrs.imp_right And.left)]
    simp [collect]

theorem TellsRuns.keep {vs : List α} (ht : TellsRuns old new es) :
    TellsRuns old new (.keep vs :: es) where
  behindKept {p rs} h he hrs := by
    rw [operations, h.flushGap_eq_nil, List.nil_append, ht.behindKept h.keep rfl hrs, collect,
      gap_nil_nil, pushKept_pushKept]
  inGap {p ds as rs} h he hrs := by
    rw [operations, List.foldl_append, h.foldl_flushGap (hrs.imp_right And.left),
      ht.behindKept h.keep rfl hrs.gap_ne_kept, collect]
    simp [gap]

theorem TellsRuns.drop {vs : List α} (ht : TellsRuns old new es) (hv : vs ≠ []) :
    TellsRuns old new (.drop vs :: es) where
  behindKept {p rs} h he hrs := by
    have hgap : Opens (kept :: rs) ([] ++ vs) ([] : List α) := .inr ⟨⟨rs, rfl⟩, .inl hv⟩
    rw [operations, List.foldl_append, foldl_flushEqual he hrs, ht.inGap (h.drop hv) rfl hgap,
      collect, List.nil_append, pushKept_collect (.inl hv)]
    simp
  inGap {p ds as rs} h he hrs := by
    have hgap : Opens rs (ds ++ vs) (as ++ []) := hrs.append (.inl hv)
    rw [List.append_nil] at hgap
    rw [operations, flushEqual_eq_nil he, List.nil_append,
      ht.inGap (h.drop hv) rfl hgap, collect]

theorem TellsRuns.add {vs : List α} (ht : TellsRuns old new es) (hv : vs ≠ []) :
    TellsRuns old new (.add vs :: es) where
  behindKept {p rs} h he hrs := by
    have hgap : Opens (kept :: rs) ([] : List α) ([] ++ vs) := .inr ⟨⟨rs, rfl⟩, .inr hv⟩
    rw [operations, List.foldl_append, foldl_flushEqual he hrs, ht.inGap (h.add hv) rfl hgap,
      collect, List.nil_append, pushKept_collect (.inr hv)]
    simp
  inGap {p ds as rs} h he hrs := by
    have hgap : Opens rs (ds ++ []) (as ++ vs) := hrs.append (.inr hv)
    rw [List.append_nil] at hgap
    rw [operations, flushEqual_eq_nil he, List.nil_append,
      ht.inGap (h.add hv) rfl hgap, collect]

theorem tellsRuns_of_solid (hs : Edit.Solid es) : TellsRuns old new es := by
  induction es with
  | nil => exact tellsRuns_nil
  | cons e es ih =>
    obtain ⟨hv, hes⟩ := Edit.solid_cons.mp hs
    cases e with
    | keep vs => exact (ih hes).keep
    | drop vs => exact (ih hes).drop hv
    | add vs => exact (ih hes).add hv

end Pending

/-- The operations of blocks without empty ones are read as the runs of the blocks. -/
theorem Run.ofOperations_operations {α : Type} {es : List (Edit α)} (hs : Edit.Solid es) :
    ofOperations (es.flatMap Edit.old) (es.flatMap Edit.new) (Pending.start.operations es) =
      collect [] [] es :=
  (Pending.tellsRuns_of_solid hs).inGap (Pending.holds_start es) rfl (.inl rfl)

namespace Comparison

open Edit Declaration

theorem sorted_eq_nil {vs : List String} : sorted vs = [] ↔ vs = [] := by
  rw [← List.length_eq_zero_iff, sorted, List.length_mergeSort, List.length_eq_zero_iff]

/-- The runs of two enumerations are those of the alignment of their values, if they have any. -/
theorem enumRuns_eq_collect {old new : List String} (h : old ≠ [] ∨ new ≠ []) :
    enumRuns old new = Run.collect [] [] (align (sorted old) (sorted new)) := by
  have hs : Solid (align (sorted old) (sorted new)) :=
    solid_align (h.imp (mt sorted_eq_nil.mp) (mt sorted_eq_nil.mp))
  have hruns := Run.ofOperations_operations hs
  rwa [flatMap_old_align, flatMap_new_align] at hruns

/-- Two enumerations without values have one run, in which nothing is removed. -/
theorem enumRuns_nil : enumRuns [] [] = [.removed []] := by
  rw [enumRuns, sorted_eq_nil.mpr rfl, Edit.operations, align_nil]
  rfl

end Comparison
end ApiSurface
