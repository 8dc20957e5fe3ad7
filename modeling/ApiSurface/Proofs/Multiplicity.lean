import ApiSurface.Proofs.Emissions
import ApiSurface.Proofs.Equivalence

/-! How often a comparison repeats itself. Without `dedupe` a name that stands on both sides is
visited twice, and so is everything below it: a record is repeated once for every way of choosing
one of the two visits of each shared name on its path. -/
namespace ApiSurface.Comparison

open Emission

/-- How many names on a path stand on both sides at their level. -/
def sharedNames (old new : Structure) (p : List String) : Nat :=
  p.inits.countP fun q => (old.at? q).isSome && (new.at? q).isSome

/-- The same below two entries, these included. -/
def sharedFrom (old new : Option Linked) (p : List String) : Nat :=
  p.inits.countP fun q => (Linked.follow old q).isSome && (Linked.follow new q).isSome

/-- How often the entries of one name are visited. -/
def visits (old new : Option Linked) : Nat := if old.isSome && new.isSome then 2 else 1

theorem sharedNames_cons (old new : Structure) (n : String) (p : List String) :
    sharedNames old new (n :: p) = sharedFrom (old.named? n) (new.named? n) p := by
  simp [sharedNames, sharedFrom, List.countP_map, Function.comp_def]

theorem two_pow_sharedFrom_nil (old new : Option Linked) :
    2 ^ sharedFrom old new [] = visits old new := by
  cases old <;> cases new <;> rfl

theorem two_pow_sharedFrom_cons (old new : Option Linked) (n : String) (p : List String) :
    2 ^ sharedFrom old new (n :: p) =
      visits old new * 2 ^ sharedFrom (old.bind (·.member? n)) (new.bind (·.member? n)) p := by
  have h : sharedFrom old new (n :: p) = sharedFrom old new []
      + sharedFrom (old.bind (·.member? n)) (new.bind (·.member? n)) p := by
    simp [sharedFrom, List.countP_cons, List.countP_map, Function.comp_def, Nat.add_comm]
  rw [h, pow_add, two_pow_sharedFrom_nil]

namespace Emission

/-- The weights of the paths at which a record is reported, together. -/
def weight (c : Change) (w : List String → Nat) (es : List Emission) : Nat :=
  ((es.filter (·.change = c)).map fun e => w e.path).sum

variable (c : Change) (w : List String → Nat)

@[simp] theorem weight_nil : weight c w [] = 0 := rfl

@[simp] theorem weight_append (es fs : List Emission) :
    weight c w (es ++ fs) = weight c w es + weight c w fs := by simp [weight]

theorem weight_here (cs : List Change) : weight c w (here cs) = cs.count c * w [] := by
  induction cs with
  | nil => simp [here]
  | cons d ds ih =>
    have hc : here (d :: ds) = [⟨[], d⟩] ++ here ds := rfl
    rw [hc, weight_append, ih]
    by_cases h : d = c
    · simp [weight, h, Nat.add_mul, Nat.add_comm]
    · simp [weight, h]

theorem weight_under (n : String) (es : List Emission) :
    weight c w (es.map (under n)) = weight c (fun p => w (n :: p)) es := by
  rw [weight, List.filter_map, List.map_map]
  rfl

theorem weight_gather (ns : List String) (f : String → List Emission) :
    weight c w (gather ns f) = (ns.map fun n => weight c (fun p => w (n :: p)) (f n)).sum := by
  induction ns with
  | nil => rfl
  | cons n ns ih =>
    have hc : gather (n :: ns) f = (f n).map (under n) ++ gather ns f := by simp [gather]
    rw [hc, weight_append, weight_under, ih, List.map_cons, List.sum_cons]

theorem weight_close (es : List Emission) :
    weight c w (close es) =
      weight c w es + if es = [] then 0 else [Change.separator].count c * w [] := by
  unfold close
  cases es with
  | nil => rfl
  | cons e es =>
    rw [List.isEmpty_cons, if_neg Bool.false_ne_true, if_neg (List.cons_ne_nil e es), weight_append,
      weight_here]

theorem weight_mul (k : Nat) (es : List Emission) :
    weight c (fun p => k * w p) es = k * weight c w es := by
  simp [weight, List.sum_map_mul_left]

end Emission

theorem count_close (c : Change) (cs : List Change) :
    (close cs).count c = cs.count c + if cs = [] then 0 else [Change.separator].count c := by
  unfold close
  cases cs with
  | nil => rfl
  | cons d ds =>
    rw [List.isEmpty_cons, if_neg Bool.false_ne_true, if_neg (List.cons_ne_nil d ds),
      List.count_append]

/-- The names visited once more are those of the entries that stand on both sides. -/
theorem filter_names_true (old new : Index) :
    (names true old new).filter (fun n => (old.get? n).isSome && (new.get? n).isSome) =
      old.names.filter (new.contains ·) := by
  have hn : (new.names.filter (!old.contains ·)).filter
      (fun n => (old.get? n).isSome && (new.get? n).isSome) = [] := by
    refine List.filter_eq_nil_iff.mpr fun n h => ?_
    have hc := (List.mem_filter.mp h).2
    simp_all [Index.contains]
  simp only [names, if_true, List.filter_append, hn, List.append_nil]
  refine List.filter_congr fun n h => ?_
  have hc := (Index.mem_names old n).mp h
  simp_all [Index.contains]

theorem sum_visits (old new : Index) (g : String → Nat) (ns : List String) :
    (ns.map fun n => visits (old.get? n) (new.get? n) * g n).sum = (ns.map g).sum +
      ((ns.filter fun n => (old.get? n).isSome && (new.get? n).isSome).map g).sum := by
  induction ns with
  | nil => rfl
  | cons n ns ih =>
    rw [List.map_cons, List.sum_cons, ih, List.filter_cons, visits]
    split_ifs
    · simp only [List.map_cons, List.sum_cons]
      omega
    · simp only [List.map_cons, List.sum_cons]
      omega

/-- Each name counts as often as its entries are visited. -/
theorem sum_names_false {old new : Index} (ho : old.names.Nodup) (hn : new.names.Nodup)
    (g : String → Nat) :
    ((names false old new).map g).sum =
      ((names true old new).map fun n => visits (old.get? n) (new.get? n) * g n).sum := by
  rw [((names_false_perm ho hn).map g).sum_eq, List.map_append, List.sum_append, sum_visits,
    filter_names_true]

theorem count_compareIndexes (c : Change) {old new : Index} (ho : old.names.Nodup)
    (hn : new.names.Nodup) :
    (compareIndexes false old new).count c = ((names true old new).map fun n =>
      visits (old.get? n) (new.get? n) *
        (compareEntries false (old.get? n) (new.get? n)).count c).sum := by
  rw [compareIndexes, List.count_flatMap, sum_names_false ho hn]
  rfl

/-- The members of two entries report something in both modes or in none. -/
theorem memberEmissions_eq_nil_iff (old new : Option Linked) :
    memberEmissions true old new = [] ↔ memberChanges false old new = [] := by
  rw [← List.map_eq_nil_iff, map_change_memberEmissions, memberChanges, memberChanges]
  split_ifs
  · simp only [compareIndexes_eq_nil_iff, compareEntries_eq_nil_iff_agrees]
  · rfl

theorem visits_mul_count (c : Change) (old new : Option Linked) :
    visits old new * (compareEntries false old new).count c =
      weight c (fun p => 2 ^ sharedFrom old new p) (entryEmissions true old new) := by
  induction old, new using entries_induction with
  | step old new ih =>
    have hm : visits old new * (memberChanges false old new).count c =
        weight c (fun p => 2 ^ sharedFrom old new p) (memberEmissions true old new) := by
      rw [memberChanges, memberEmissions]
      split_ifs with hd
      · rw [count_compareIndexes c (Index.nodup_names_ofMembers _) (Index.nodup_names_ofMembers _),
          weight_gather, ← List.sum_map_mul_left]
        refine congrArg List.sum (List.map_congr_left fun n _ => ?_)
        simp only [two_pow_sharedFrom_cons, weight_mul, Index.get?_ofMembers, ih hd n]
      · simp
    rw [compareEntries_eq, entryEmissions_eq, List.count_append, weight_append, weight_here,
      count_close, weight_close, ← hm, two_pow_sharedFrom_nil]
    simp only [memberEmissions_eq_nil_iff]
    split_ifs <;> ring

theorem count_compare_false (c : Change) (old new : Structure) :
    (compare false old new).count c =
      weight c (fun p => 2 ^ sharedNames old new p) (emissions true old new) := by
  rw [compare, count_compareIndexes c (Index.nodup_names_ofStructure old)
    (Index.nodup_names_ofStructure new), emissions, weight_gather]
  refine congrArg List.sum (List.map_congr_left fun n _ => ?_)
  simp only [Index.get?_ofStructure, sharedNames_cons, visits_mul_count]

/-! Visiting each name once leaves out records and changes no order. -/

theorem close_sublist {cs ds : List Change} (h : cs.Sublist ds) :
    (close cs).Sublist (close ds) := by
  cases cs with
  | nil => exact List.nil_sublist _
  | cons c cs =>
    cases ds with
    | nil => cases h
    | cons d ds => exact h.append (List.Sublist.refl _)

theorem names_sublist (old new : Index) : (names true old new).Sublist (names false old new) :=
  (List.Sublist.refl old.names).append List.filter_sublist

theorem compareIndexes_sublist {old new : Index}
    (h : ∀ n, (compareEntries true (old.get? n) (new.get? n)).Sublist
      (compareEntries false (old.get? n) (new.get? n))) :
    (compareIndexes true old new).Sublist (compareIndexes false old new) :=
  (List.Sublist.flatMap_right _ fun n _ => h n).trans ((names_sublist old new).flatMap _)

theorem compareEntries_sublist (old new : Option Linked) :
    (compareEntries true old new).Sublist (compareEntries false old new) := by
  induction old, new using entries_induction with
  | step old new ih =>
    rw [compareEntries_eq, compareEntries_eq]
    refine (List.Sublist.refl _).append (close_sublist ?_)
    rw [memberChanges, memberChanges]
    split_ifs with hd
    · refine compareIndexes_sublist fun n => ?_
      simpa only [Index.get?_ofMembers] using ih hd n
    · exact List.Sublist.refl _

/-- The comparison that visits each name once gives a subsequence of the one that does not. Its
records, each with the declarations that report it, tell how often the other repeats them: twice
for every name on their path that stands on both sides. -/
theorem sublist_and_count_compare (old new : Structure) :
    (compare true old new).Sublist (compare false old new) ∧
    (emissions true old new).map (·.change) = compare true old new ∧
    (∀ e ∈ emissions true old new, e.change ∈ localChanges true (old.at? e.path) (new.at? e.path)) ∧
    ∀ c, (compare false old new).count c =
      (((emissions true old new).filter (·.change = c)).map
        fun e => 2 ^ sharedNames old new e.path).sum := by
  refine ⟨?_, map_change_emissions true old new, ?_, fun c => count_compare_false c old new⟩
  · refine compareIndexes_sublist fun n => ?_
    exact compareEntries_sublist _ _
  · exact fun e he => mem_localChanges_of_mem_emissions he

end ApiSurface.Comparison
