import ApiSurface.Comparison.Operations
import ApiSurface.Proofs.EditScript

/-! The operations of an alignment. Equalities and gaps alternate, since what is pending is told
before anything of the other sort is, and the parts that the operations name lie in the lists. -/
namespace ApiSurface

namespace Operation

def isEqual : Operation → Bool
  | equal => true
  | delete _ | insert _ | replace _ _ => false

/-- The parts that an operation names lie in lists of these lengths. -/
def Within (m n : Nat) : Operation → Prop
  | equal => True
  | delete s => s.start + s.length ≤ m
  | insert t => t.start + t.length ≤ n
  | replace s t => s.start + s.length ≤ m ∧ t.start + t.length ≤ n

/-- No two equalities are neighbours, and no two operations that change something. -/
def Alternating (os : List Operation) : Prop := os.IsChain fun o o' => o.isEqual ≠ o'.isEqual

end Operation

namespace Pending

open Operation

variable {p : Pending} {os : List Operation}

theorem flushGap_cases (p : Pending) :
    p.flushGap = [] ∨ ∃ o, p.flushGap = [o] ∧ o.isEqual = false := by
  unfold flushGap
  split
  · exact .inr ⟨_, rfl, rfl⟩
  · exact .inr ⟨_, rfl, rfl⟩
  · exact .inr ⟨_, rfl, rfl⟩
  · exact .inl rfl

theorem flushGap_drop_ne_nil (p : Pending) (n : Nat) : (p.drop n).flushGap ≠ [] := by
  unfold flushGap drop
  cases p.inserted <;> simp

theorem flushGap_add_ne_nil (p : Pending) (n : Nat) : (p.add n).flushGap ≠ [] := by
  unfold flushGap add
  cases p.deleted <;> simp

/-- What is told first is what is pending. -/
structure Leads (p : Pending) (os : List Operation) : Prop where
  alternating : Alternating os
  equal : p.equal → ∀ o ∈ os.head?, o.isEqual
  gap : p.flushGap ≠ [] → ∀ o ∈ os.head?, o.isEqual = false

/-- Before a block that is not kept, kept values are told. -/
theorem Leads.flushEqual {p' : Pending} (h : Leads p' os) (hgap : p'.flushGap ≠ [])
    (hp : p.equal → p.flushGap = []) : Leads p (p.flushEqual ++ os) := by
  have hos := h.gap hgap
  unfold Pending.flushEqual
  split
  · next he =>
    refine ⟨List.isChain_cons.mpr ⟨fun o ho => ?_, h.alternating⟩, fun _ o ho => ?_, fun hne => ?_⟩
    · rw [hos o ho]
      decide
    · cases ho
      rfl
    · exact absurd (hp he) hne
  · next he => exact ⟨h.alternating, fun h => absurd h he, fun _ => hos⟩

/-- Before a block that is kept, the gap is told. -/
theorem Leads.flushGap {p' : Pending} (h : Leads p' os) (he : p'.equal)
    (hp : p.equal → p.flushGap = []) : Leads p (p.flushGap ++ os) := by
  have hos := h.equal he
  obtain hg | ⟨o, hg, ho⟩ := p.flushGap_cases
  · rw [hg]
    exact ⟨h.alternating, fun _ => hos, fun hne => absurd hg hne⟩
  · rw [hg]
    refine ⟨List.isChain_cons.mpr ⟨fun o' ho' => ?_, h.alternating⟩, fun he' => ?_,
      fun _ o' ho' => ?_⟩
    · rw [ho, hos o' ho']
      decide
    · rw [hp he'] at hg
      cases hg
    · cases ho'
      exact ho

/-- The operations alternate, and go on from what is pending. -/
theorem leads_operations {α : Type} (es : List (Edit α)) (hp : p.equal → p.flushGap = []) :
    Leads p (p.operations es) := by
  induction es generalizing p with
  | nil =>
    by_cases he : p.equal
    · rw [operations, flushEqual, if_pos he, hp he]
      refine ⟨List.isChain_singleton _, fun _ o ho => ?_, fun hne => absurd (hp he) hne⟩
      cases ho
      rfl
    · have hend : Leads (p.keep 0) [] := ⟨List.isChain_nil, by simp, by simp⟩
      have hgap := hend.flushGap rfl hp
      rw [List.append_nil] at hgap
      rw [operations, flushEqual, if_neg he, List.nil_append]
      exact hgap
  | cons e es ih =>
    cases e with
    | keep vs => exact (ih (p := p.keep vs.length) fun _ => rfl).flushGap rfl hp
    | drop vs =>
      exact (ih (p := p.drop vs.length) (by simp [drop])).flushEqual (flushGap_drop_ne_nil _ _) hp
    | add vs =>
      exact (ih (p := p.add vs.length) (by simp [add])).flushEqual (flushGap_add_ne_nil _ _) hp

/-- What is in the gap reaches up to the place where the blocks go on. -/
structure Placed (p : Pending) : Prop where
  deleted : ∀ s ∈ p.deleted, s.start + s.length = p.oldIndex
  inserted : ∀ s ∈ p.inserted, s.start + s.length = p.newIndex

theorem Placed.keep (n : Nat) : Placed (p.keep n) :=
  ⟨by simp [Pending.keep], by simp [Pending.keep]⟩

theorem Placed.drop (h : Placed p) (n : Nat) : Placed (p.drop n) := by
  refine ⟨?_, h.inserted⟩
  rintro _ ⟨⟩
  have hd := h.deleted
  cases hp : p.deleted with
  | none => simp [Span.extend, Pending.drop]
  | some s =>
    have hs := hd s hp
    simp only [Option.getD_some, Span.extend, Pending.drop]
    omega

theorem Placed.add (h : Placed p) (n : Nat) : Placed (p.add n) := by
  refine ⟨h.deleted, ?_⟩
  rintro _ ⟨⟩
  have hi := h.inserted
  cases hp : p.inserted with
  | none => simp [Span.extend, Pending.add]
  | some s =>
    have hs := hi s hp
    simp only [Option.getD_some, Span.extend, Pending.add]
    omega

theorem Placed.within_flushGap (h : Placed p) {m n : Nat} (hm : p.oldIndex ≤ m)
    (hn : p.newIndex ≤ n) : ∀ o ∈ p.flushGap, o.Within m n := by
  have hd := h.deleted
  have hi := h.inserted
  unfold flushGap
  split
  · next d i hp hq => simpa [Within] using ⟨(hd d hp).trans_le hm, (hi i hq).trans_le hn⟩
  · next d hp _ => simpa [Within] using (hd d hp).trans_le hm
  · next i _ hq => simpa [Within] using (hi i hq).trans_le hn
  · simp

theorem within_flushEqual (p : Pending) (m n : Nat) : ∀ o ∈ p.flushEqual, o.Within m n := by
  unfold flushEqual
  split <;> simp [Within]

/-- The operations name parts up to where the blocks end. -/
theorem Placed.within_operations {α : Type} (h : Placed p) (es : List (Edit α)) {m n : Nat}
    (hm : p.oldIndex + (es.flatMap Edit.old).length ≤ m)
    (hn : p.newIndex + (es.flatMap Edit.new).length ≤ n) :
    ∀ o ∈ p.operations es, o.Within m n := by
  induction es generalizing p with
  | nil =>
    exact List.forall_mem_append.mpr ⟨within_flushEqual p m n, h.within_flushGap hm hn⟩
  | cons e es ih =>
    rw [List.flatMap_cons, List.length_append] at hm hn
    cases e with
    | keep vs =>
      refine List.forall_mem_append.mpr ⟨h.within_flushGap (by omega) (by omega), ?_⟩
      exact ih (.keep _) (by simpa [Pending.keep, Edit.old, Nat.add_assoc] using hm)
        (by simpa [Pending.keep, Edit.new, Nat.add_assoc] using hn)
    | drop vs =>
      refine List.forall_mem_append.mpr ⟨within_flushEqual p m n, ?_⟩
      exact ih (h.drop _) (by simpa [Pending.drop, Edit.old, Nat.add_assoc] using hm)
        (by simpa [Pending.drop, Edit.new] using hn)
    | add vs =>
      refine List.forall_mem_append.mpr ⟨within_flushEqual p m n, ?_⟩
      exact ih (h.add _) (by simpa [Pending.add, Edit.old] using hm)
        (by simpa [Pending.add, Edit.new, Nat.add_assoc] using hn)

end Pending

namespace Edit

variable {α : Type} [DecidableEq α]

theorem alternating_operations (old new : List α) :
    Operation.Alternating (operations old new) :=
  (Pending.leads_operations (align old new) fun h => by cases h).alternating

/-- The parts that the operations name are there. -/
theorem within_operations (old new : List α) :
    ∀ o ∈ operations old new, o.Within old.length new.length := by
  have hstart : Pending.start.Placed := ⟨by simp [Pending.start], by simp [Pending.start]⟩
  refine hstart.within_operations (align old new) ?_ ?_
  · simp [flatMap_old_align, Pending.start]
  · simp [flatMap_new_align, Pending.start]

end Edit

end ApiSurface
