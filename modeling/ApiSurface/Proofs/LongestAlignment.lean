import ApiSurface.Proofs.EditScript

/-! When an alignment keeps as much as can be kept. A walk does so along the table of the lists it
walks through. -/
namespace ApiSurface
namespace Edit

variable {α : Type}

theorem kept_sublist_old (es : List (Edit α)) : (es.flatMap kept).Sublist (es.flatMap old) :=
  List.Sublist.flatMap_right es fun e _ => by cases e <;> simp [kept, old]

theorem kept_sublist_new (es : List (Edit α)) : (es.flatMap kept).Sublist (es.flatMap new) :=
  List.Sublist.flatMap_right es fun e _ => by cases e <;> simp [kept, new]

/-- The old list consists of the kept and the dropped values. -/
theorem coe_old (es : List (Edit α)) :
    (es.flatMap old : Multiset α) = ↑(es.flatMap kept) + ↑(es.flatMap dropped) := by
  induction es with
  | nil => rfl
  | cons e es ih =>
    simp only [List.flatMap_cons, ← Multiset.coe_add, ih]
    cases e
    · simp only [old, kept, dropped, Multiset.coe_nil]; abel
    · simp only [old, kept, dropped, Multiset.coe_nil]; abel
    · simp [old, kept, dropped]

/-- The new list consists of the kept and the added values. -/
theorem coe_new (es : List (Edit α)) :
    (es.flatMap new : Multiset α) = ↑(es.flatMap kept) + ↑(es.flatMap added) := by
  induction es with
  | nil => rfl
  | cons e es ih =>
    simp only [List.flatMap_cons, ← Multiset.coe_add, ih]
    cases e
    · simp only [new, kept, added, Multiset.coe_nil]; abel
    · simp [new, kept, added]
    · simp only [new, kept, added, Multiset.coe_nil]; abel

/-- The kept values are a longest common subsequence of the two lists. -/
def IsLongest (es : List (Edit α)) : Prop :=
  ∀ common : List α, common.Sublist (es.flatMap old) → common.Sublist (es.flatMap new) →
    common.length ≤ (es.flatMap kept).length

variable [DecidableEq α]

/-- The length of a longest common subsequence. -/
def lcs : List α → List α → Nat
  | [], _ => 0
  | _ :: _, [] => 0
  | a :: as, b :: bs =>
    if b = a then lcs as bs + 1 else max (lcs (a :: as) bs) (lcs as (b :: bs))
termination_by as bs => as.length + bs.length

@[simp] theorem lcs_nil_left (bs : List α) : lcs [] bs = 0 := by rw [lcs]

@[simp] theorem lcs_nil_right (as : List α) : lcs as [] = 0 := by cases as <;> rw [lcs]

theorem length_le_lcs {common as bs : List α} (ha : common.Sublist as) (hb : common.Sublist bs) :
    common.length ≤ lcs as bs := by
  induction as, bs using lcs.induct generalizing common with
  | case1 bs => simp [List.sublist_nil.mp ha]
  | case2 a as => simp [List.sublist_nil.mp hb]
  | case3 as b bs ih =>
    have h := ih ha.tail hb.tail
    rw [lcs, if_pos rfl]
    simp only [List.length_tail] at h
    omega
  | case4 a as b bs hne ih1 ih2 =>
    rw [lcs, if_neg hne]
    rcases List.sublist_cons_iff.mp ha with ha' | ⟨r, rfl, hr⟩
    · exact (ih2 ha' hb).trans (le_max_right _ _)
    · -- the common part starts with `a`, so it cannot use `b`
      rcases List.sublist_cons_iff.mp hb with hb' | ⟨s, hs, _⟩
      · exact (ih1 ha hb').trans (le_max_left _ _)
      · exact absurd (List.cons.inj hs).1.symm hne

/-- A row of the table, in terms of the row below it. -/
theorem row_eq (b : α) (as bs : List α) :
    row b as (as.tails.map (lcs · bs)) = as.tails.map (lcs · (b :: bs)) := by
  induction as with
  | nil => simp [row]
  | cons a as ih =>
    have hd : (as.tails.map (lcs · bs)).headD 0 = lcs as bs := by cases as <;> rfl
    have hd' : (as.tails.map (lcs · (b :: bs))).headD 0 = lcs as (b :: bs) := by cases as <;> rfl
    simp only [List.tails_cons, List.map_cons, row, List.tail_cons, List.headD_cons, ih, hd, hd']
    rw [lcs]

/-- The table holds the lengths for all ends of the two lists. -/
theorem table_eq (as bs : List α) :
    table as bs = bs.tails.map fun t => as.tails.map (lcs · t) := by
  induction bs with
  | nil => simp [table, List.map_const']
  | cons b bs ih =>
    have hd : (table as bs).headD [] = as.tails.map (lcs · bs) := by
      rw [ih]
      cases bs <;> rfl
    rw [table, hd, row_eq, ih]
    rfl

theorem headD_table (as bs : List α) : ((table as bs).headD []).headD 0 = lcs as bs := by
  rw [table_eq]
  cases bs <;> cases as <;> rfl

theorem map_tail_table (a : α) (as bs : List α) :
    (table (a :: as) bs).map List.tail = table as bs := by
  simp only [table_eq, List.map_map, List.tails_cons, List.map_cons]
  rfl

theorem headD_map_tail (rows : List (List Nat)) :
    (rows.headD []).tail = (rows.map List.tail).headD [] := by cases rows <;> rfl

/-- The walk along the right table keeps as many values as possible. -/
theorem length_kept_walk (as bs : List α) :
    ((walk as bs (table as bs)).flatMap kept).length = lcs as bs := by
  induction as, bs using lcs.induct with
  | case1 bs => cases bs <;> simp [walk, kept]
  | case2 a as => simp [walk, kept]
  | case3 as b bs ih =>
    have ht : (table (b :: as) (b :: bs)).tail = table (b :: as) bs := rfl
    rw [walk, if_pos rfl, lcs, if_pos rfl, ht, map_tail_table]
    simpa [kept, Nat.add_comm] using ih
  | case4 a as b bs hne ih1 ih2 =>
    rw [walk, if_neg hne, lcs, if_neg hne, headD_map_tail, map_tail_table, headD_table]
    have ht : (table (a :: as) (b :: bs)).tail = table (a :: as) bs := rfl
    rw [ht, headD_table]
    split_ifs with h
    · simpa [kept, max_eq_right h] using ih2
    · simpa [kept, max_eq_left (not_le.mp h).le] using ih1

/-- Of a multiset in two parts, one is its difference from another multiset exactly if the other
part is their intersection. -/
theorem eq_sub_iff_eq_inter {s t k d : Multiset α} (h : s = k + d) : d = s - t ↔ k = s ∩ t := by
  have hs := h.symm.trans (Multiset.sub_add_inter s t).symm
  constructor
  · intro hd
    rw [hd, add_comm] at hs
    exact add_left_cancel hs
  · intro hk
    rw [hk, add_comm] at hs
    exact add_right_cancel hs

/-- What is dropped is what only the old list holds exactly if all shared values are kept. -/
theorem coe_dropped_eq_iff (es : List (Edit α)) :
    (es.flatMap dropped : Multiset α) = ↑(es.flatMap old) - ↑(es.flatMap new) ↔
      (es.flatMap kept : Multiset α) = ↑(es.flatMap old) ∩ ↑(es.flatMap new) :=
  eq_sub_iff_eq_inter (coe_old es)

theorem coe_added_eq_iff (es : List (Edit α)) :
    (es.flatMap added : Multiset α) = ↑(es.flatMap new) - ↑(es.flatMap old) ↔
      (es.flatMap kept : Multiset α) = ↑(es.flatMap old) ∩ ↑(es.flatMap new) := by
  rw [Multiset.inter_comm]
  exact eq_sub_iff_eq_inter (coe_new es)

theorem kept_walk_le (as bs : List α) (rows : List (List Nat)) :
    ((walk as bs rows).flatMap kept : Multiset α) ≤ (as : Multiset α) ∩ bs := by
  refine Multiset.le_inter ?_ ?_
  · have h := kept_sublist_old (walk as bs rows)
    rw [flatMap_old_walk] at h
    exact h.subperm
  · have h := kept_sublist_new (walk as bs rows)
    rw [flatMap_new_walk] at h
    exact h.subperm

theorem middle_sublist (as bs : List α) : (middle as bs).Sublist as :=
  (List.take_sublist _ _).trans (List.drop_sublist _ _)

/-- Without a common front the head the table is made of is the middle itself. -/
theorem take_length_middle {as bs : List α} (h : commonFront as bs = 0) :
    as.take (middle as bs).length = middle as bs := by
  have hp : middle as bs <+: as := by
    rw [middle, behindFront, h, List.drop_zero]
    exact List.take_prefix _ _
  exact (List.prefix_iff_eq_take.mp hp).symm

theorem middle_self (as : List α) : middle as as = [] := by
  have h : commonFront as as = as.length := by
    induction as with
    | nil => rfl
    | cons a as ih => simp [commonFront, ih]
  simp [middle, behindFront, h]

/-! Of sorted lists a longest common subsequence consists of all values they share. -/

section Sorted

variable [PartialOrder α]

theorem exists_common {as bs : List α} (ha : as.Pairwise (· ≤ ·)) (hb : bs.Pairwise (· ≤ ·)) :
    ∃ common : List α, common.Sublist as ∧ common.Sublist bs ∧
      (common : Multiset α) = (as : Multiset α) ∩ bs := by
  have hl : (as.bagInter bs).Sublist as := List.bagInter_sublist_left
  have hr : (as.bagInter bs).Subperm bs :=
    Multiset.coe_le.mp (Multiset.inter_le_right (s := (as : Multiset α)) (t := bs))
  exact ⟨_, hl, List.sublist_of_subperm_of_pairwise hr (ha.sublist hl) hb, rfl⟩

/-- An alignment of sorted lists is longest exactly if it keeps all values that both hold. -/
theorem isLongest_iff (es : List (Edit α)) (ho : (es.flatMap old).Pairwise (· ≤ ·))
    (hn : (es.flatMap new).Pairwise (· ≤ ·)) :
    IsLongest es ↔ (es.flatMap kept : Multiset α) = ↑(es.flatMap old) ∩ ↑(es.flatMap new) := by
  constructor
  · intro h
    obtain ⟨common, hl, hr, hc⟩ := exists_common ho hn
    have hle : (es.flatMap kept : Multiset α) ≤ ↑(es.flatMap old) ∩ ↑(es.flatMap new) :=
      Multiset.le_inter (kept_sublist_old es).subperm (kept_sublist_new es).subperm
    refine Multiset.eq_of_le_of_card_le hle ?_
    rw [← hc]
    exact h common hl hr
  · intro h common hl hr
    have hle : (common : Multiset α) ≤ ↑(es.flatMap kept) :=
      h ▸ Multiset.le_inter hl.subperm hr.subperm
    exact Multiset.card_le_card hle

/-- The walk along the right table keeps all values that two sorted lists share. -/
theorem kept_walk_table {as bs : List α} (ha : as.Pairwise (· ≤ ·)) (hb : bs.Pairwise (· ≤ ·)) :
    ((walk as bs (table as bs)).flatMap kept : Multiset α) = (as : Multiset α) ∩ bs := by
  obtain ⟨common, hl, hr, hc⟩ := exists_common ha hb
  refine Multiset.eq_of_le_of_card_le (kept_walk_le as bs _) ?_
  rw [← hc, Multiset.coe_card, Multiset.coe_card, length_kept_walk]
  exact length_le_lcs hl hr

/-- The walk keeps what the middles share if it has the right table, or if they share nothing. -/
theorem kept_walk_guide {as bs : List α} (ha : as.Pairwise (· ≤ ·)) (hb : bs.Pairwise (· ≤ ·))
    (h : commonFront as bs = 0 ∨ (middle as bs).Disjoint (middle bs as)) :
    ((walk (middle as bs) (middle bs as) (guide as bs)).flatMap kept : Multiset α) =
      (middle as bs : Multiset α) ∩ middle bs as := by
  rcases h with h | h
  · rw [guide, take_length_middle h, take_length_middle (commonFront_comm as bs ▸ h)]
    exact kept_walk_table (ha.sublist (middle_sublist as bs)) (hb.sublist (middle_sublist bs as))
  · have hz : (middle as bs : Multiset α) ∩ middle bs as = 0 :=
      Multiset.inter_eq_zero_iff_disjoint.mpr (Multiset.coe_disjoint _ _ |>.mpr h)
    have hle := kept_walk_le (middle as bs) (middle bs as) (guide as bs)
    rw [hz] at hle ⊢
    exact Multiset.le_zero.mp hle

/-- The alignment of two sorted lists is longest if they start differently, or if they share no
value between their common ends. -/
theorem isLongest_align {as bs : List α} (ha : as.Pairwise (· ≤ ·)) (hb : bs.Pairwise (· ≤ ·))
    (h : commonFront as bs = 0 ∨ (middle as bs).Disjoint (middle bs as)) :
    IsLongest (align as bs) := by
  have ho := flatMap_old_align as bs
  have hn := flatMap_new_align as bs
  refine (isLongest_iff _ (ho.symm ▸ ha) (hn.symm ▸ hb)).mpr ?_
  rw [ho, hn, flatMap_kept_align, ← Multiset.coe_add, ← Multiset.coe_add, kept_walk_guide ha hb h,
    Multiset.inter_add_distrib, Multiset.add_inter_distrib]
  simp only [Multiset.coe_add, front_middle_ending, front_middle_ending_right]

end Sorted

end Edit
end ApiSurface
