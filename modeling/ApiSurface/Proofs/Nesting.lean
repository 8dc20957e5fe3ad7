import ApiSurface.Proofs.Spelling
import ApiSurface.TypeText

/-! Nesting of brackets in a text. A part of a list in brackets ends at the first comma or closing
bracket that stands in no bracket of its own. So a list tells its parts if each of them leads
through its brackets back to where it started. -/
namespace ApiSurface
open Source

/-- The sign of equality counts, too: an arrow opens with it and closes itself. -/
def opening : List Char := ['(', '[', '\x7b', '<', '=']

def closing : List Char := [')', ']', '\x7d', '>']

/-- The front of a text up to the first comma or closing bracket that is in no bracket. The front is
in `n` brackets where it starts. -/
def front : Nat → List Char → List Char
  | _, [] => []
  | n, c :: cs =>
    if opening.contains c then c :: front (n + 1) cs
    else if closing.contains c then
      match n with
      | 0 => []
      | n + 1 => c :: front n cs
    else if c = ',' && n = 0 then [] else c :: front n cs

/-- A text leads from `m` brackets into `n`, and it meets no end on the way. -/
def Leads (s : String) (m n : Nat) : Prop :=
  ∀ k rest, front (k + m) (s.toList ++ rest) = s.toList ++ front (k + n) rest

namespace Leads

variable {s t between : String} {l m n : Nat}

theorem empty : Leads "" n n := fun _ _ => rfl

theorem append (hs : Leads s l m) (ht : Leads t m n) : Leads (s ++ t) l n := fun k rest => by
  simp only [String.toList_append, List.append_assoc, hs k, ht k]

theorem within (h : Leads s m n) (l : Nat) : Leads s (l + m) (l + n) := fun k rest => by
  simpa only [Nat.add_assoc] using h (k + l) rest

theorem intercalate (hb : Leads between n n) {ss : List String} (h : ∀ s ∈ ss, Leads s n n) :
    Leads (between.intercalate ss) n n := by
  induction ss with
  | nil => exact empty
  | cons s ss ih =>
    obtain ⟨hs, hss⟩ := List.forall_mem_cons.1 h
    cases ss with
    | nil => exact hs
    | cons t ss =>
      rw [String.intercalate_cons_cons]
      exact (hs.append hb).append (ih hss)

/-- A list in brackets is in one. -/
theorem commas {ss : List String} (h : ∀ s ∈ ss, Leads s 0 0) : Leads (commas ss) 1 1 :=
  intercalate (fun _ _ => rfl) fun s hs => (h s hs).within 1

/-! Words and numbers. -/

/-- Neither a bracket nor a comma. -/
def isPlain (c : Char) : Bool := !(',' :: (opening ++ closing)).contains c

theorem of_plain (h : ∀ c ∈ s.toList, isPlain c) : Leads s n n := by
  have hlist : ∀ cs : List Char, (∀ c ∈ cs, isPlain c) → ∀ k rest,
      front k (cs ++ rest) = cs ++ front k rest := by
    intro cs hcs k rest
    induction cs with
    | nil => rfl
    | cons c cs ih =>
      obtain ⟨hc, hcs⟩ := List.forall_mem_cons.1 hcs
      obtain ⟨hcomma, ho, hcl⟩ : c ≠ ',' ∧ c ∉ opening ∧ c ∉ closing := by
        simpa [isPlain, not_or] using hc
      simp [front, ho, hcl, hcomma, ih hcs]
  exact fun k rest => hlist _ h _ _

theorem isPlain_of_numeralPart {c : Char} (h : isNumeralPart c) : isPlain c := by
  have hends : (',' :: (opening ++ closing)).all (!isNumeralPart ·) := by decide
  by_contra hc
  have hmem : c ∈ ',' :: (opening ++ closing) := by
    rwa [isPlain, Bool.not_eq_true', Bool.not_eq_false, List.contains_iff_mem] at hc
  have hend := List.all_eq_true.1 hends c hmem
  rw [h] at hend
  cases hend

theorem number (h : ∀ c ∈ s.toList, isNumeralPart c) : Leads s n n :=
  of_plain fun c hc => isPlain_of_numeralPart (h c hc)

theorem name (h : IsName s) : Leads s n n :=
  number fun c hc => isNumeralPart_of_part (h.part c hc)

theorem dotted {path : List String} (h : ∀ s ∈ path, IsName s) : Leads (dotted path) n n :=
  intercalate (fun _ _ => rfl) fun s hs => name (h s hs)

end Leads

/-! Lists in brackets. -/

theorem front_append {s : String} (hs : Leads s 0 0) {c : Char} (hc : c = ',' ∨ c = ')')
    (rest : List Char) : front 0 (s.toList ++ c :: rest) = s.toList := by
  have hend : front 0 (c :: rest) = [] := by obtain rfl | rfl := hc <;> rfl
  simpa [hend] using hs 0 (c :: rest)

/-- Parts of two lists are the same if the lists go on alike from there. -/
theorem part_cancel {s t : String} (hs : Leads s 0 0) (ht : Leads t 0 0) {c d : Char}
    (hc : c = ',' ∨ c = ')') (hd : d = ',' ∨ d = ')') {rest rest' : List Char}
    (h : s.toList ++ c :: rest = t.toList ++ d :: rest') : s = t ∧ c = d ∧ rest = rest' := by
  have hst : s.toList = t.toList := by
    rw [← front_append hs hc rest, h, front_append ht hd]
  rw [hst, List.append_cancel_left_eq] at h
  exact ⟨String.toList_inj.1 hst, List.cons.inj h⟩

/-- What follows a part of a list in brackets. -/
def behindPart : List String → List Char → List Char
  | [], rest => ')' :: rest
  | s :: ss, rest => ',' :: ' ' :: (s.toList ++ behindPart ss rest)

theorem toList_commas_cons (s : String) (ss : List String) (rest : List Char) :
    (commas (s :: ss)).toList ++ ')' :: rest = s.toList ++ behindPart ss rest := by
  induction ss generalizing s with
  | nil => simp [commas, behindPart]
  | cons t ss ih =>
    rw [commas, String.intercalate_cons_cons, ← commas]
    simp [behindPart, ← ih t]

theorem exists_behindPart (ss : List String) (rest : List Char) :
    ∃ c cs, behindPart ss rest = c :: cs ∧ (c = ',' ∨ c = ')') := by
  cases ss with
  | nil => exact ⟨')', _, rfl, .inr rfl⟩
  | cons s ss => exact ⟨',', _, rfl, .inl rfl⟩

theorem behindPart_cancel {ss ts : List String} (hs : ∀ s ∈ ss, Leads s 0 0)
    (ht : ∀ t ∈ ts, Leads t 0 0) {rest rest' : List Char}
    (h : behindPart ss rest = behindPart ts rest') : ss = ts ∧ rest = rest' := by
  induction ss generalizing ts with
  | nil =>
    cases ts with
    | nil => exact ⟨rfl, (List.cons.inj h).2⟩
    | cons t ts => cases (List.cons.inj h).1
  | cons s ss ih =>
    cases ts with
    | nil => cases (List.cons.inj h).1
    | cons t ts =>
      obtain ⟨hsl, hss⟩ := List.forall_mem_cons.1 hs
      obtain ⟨htl, hts⟩ := List.forall_mem_cons.1 ht
      obtain ⟨c, cs, hc, hcend⟩ := exists_behindPart ss rest
      obtain ⟨d, ds, hd, hdend⟩ := exists_behindPart ts rest'
      have hparts := (List.cons.inj (List.cons.inj h).2).2
      rw [hc, hd] at hparts
      obtain ⟨rfl, rfl, rfl⟩ := part_cancel hsl htl hcend hdend hparts
      obtain ⟨rfl, rfl⟩ := ih hss hts (hc.trans hd.symm)
      exact ⟨rfl, rfl⟩

/-- A list in brackets tells its parts and what follows it. -/
theorem commas_cancel {ss ts : List String} (hs : ∀ s ∈ ss, s ≠ "" ∧ Leads s 0 0)
    (ht : ∀ t ∈ ts, t ≠ "" ∧ Leads t 0 0) {rest rest' : List Char}
    (h : (commas ss).toList ++ ')' :: rest = (commas ts).toList ++ ')' :: rest') :
    ss = ts ∧ rest = rest' := by
  have empty_cancel {t : String} {ts : List String} {rest rest' : List Char}
      (ht : t ≠ "" ∧ Leads t 0 0) (h : ')' :: rest = t.toList ++ behindPart ts rest') : False := by
    obtain ⟨d, ds, hd, hdend⟩ := exists_behindPart ts rest'
    rw [hd] at h
    exact ht.1 (part_cancel .empty ht.2 (.inr rfl) hdend h).1.symm
  cases ss with
  | nil =>
    cases ts with
    | nil => exact ⟨rfl, (List.cons.inj h).2⟩
    | cons t ts =>
      rw [toList_commas_cons t] at h
      exact (empty_cancel (ht t List.mem_cons_self) h).elim
  | cons s ss =>
    rw [toList_commas_cons s] at h
    cases ts with
    | nil => exact (empty_cancel (hs s List.mem_cons_self) h.symm).elim
    | cons t ts =>
      rw [toList_commas_cons t] at h
      refine behindPart_cancel (fun s h => (hs s h).2) (fun t h => (ht t h).2) ?_
      exact congrArg (',' :: ' ' :: ·) h

end ApiSurface
