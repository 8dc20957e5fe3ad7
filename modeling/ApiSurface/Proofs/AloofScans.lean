import ApiSurface.Proofs.FrontScans

/-! Scanners that leave some characters to others. An aloof scanner takes none of a sort of
characters and treats them all like the end of the text, so what it does with a text it also does
where one of these characters and more text follow. -/
namespace ApiSurface.Source
open Text Text.Scan

/-- The text is empty, or its first character is of some sort. -/
def Opens (p : Char → Bool) (q : List Char) : Prop := ∀ c ∈ q.head?, p c

/-- What opens with a character of the sort is neither taken nor looked at. -/
def Aloof {α : Type} (p : Char → Bool) (s : Scan α) : Prop :=
  ∀ ⦃x q : List Char⦄, Opens p q → s (x ++ q) = (s x).map fun r => (r.1, r.2 ++ q)

section Rules

variable {α β : Type} {p : Char → Bool}

theorem opens_nil : Opens p [] := nofun

theorem opens_cons {c : Char} {q : List Char} : Opens p (c :: q) ↔ p c := by simp [Opens]

theorem Opens.append {q : List Char} (h : Opens p q) (hne : q ≠ []) (cs : List Char) :
    Opens p (q ++ cs) := by
  obtain ⟨c, q, rfl⟩ := List.exists_cons_of_ne_nil hne
  exact opens_cons.mpr (opens_cons.mp h)

namespace Aloof

theorem pure (a : α) : Aloof p (Pure.pure a : Scan α) := fun _ _ _ => rfl

theorem fail : Aloof p (Scan.fail : Scan α) := fun _ _ _ => rfl

theorem bind {s : Scan α} {k : α → Scan β} (hs : Aloof p s) (hk : ∀ a, Aloof p (k a)) :
    Aloof p (s >>= k) := by
  intro x q hq
  rw [scan_bind_apply, scan_bind_apply, hs hq]
  cases s x with
  | none => rfl
  | some r => exact hk r.1 hq

theorem map {s : Scan α} (f : α → β) (hs : Aloof p s) : Aloof p (f <$> s) :=
  hs.bind fun a => pure (f a)

theorem ite {c : Prop} [Decidable c] {s s' : Scan α} (hs : Aloof p s) (hs' : Aloof p s') :
    Aloof p (if c then s else s') := by
  split
  · exact hs
  · exact hs'

theorem char {c : Char} (hc : p c = false) : Aloof p (Scan.char c) := by
  intro x q hq
  cases x with
  | nil =>
    cases q with
    | nil => rfl
    | cons d q =>
      have hd : d ≠ c := by
        rintro rfl
        simp [opens_cons.mp hq] at hc
      exact if_neg hd
  | cons d x =>
    simp only [List.cons_append, Scan.char]
    split <;> rfl

theorem run {r : Char → Bool} (hr : ∀ c, p c → r c = false) : Aloof p (Scan.run r) := by
  intro x q hq
  induction x with
  | nil =>
    cases q with
    | nil => rfl
    | cons d q => simp [hr d (opens_cons.mp hq)]
  | cons c x ih =>
    simp only [run_apply, Option.map_some, Option.some.injEq, Prod.mk.injEq, List.cons_append,
      List.takeWhile_cons, List.dropWhile_cons] at ih ⊢
    split
    · exact ⟨by rw [ih.1], ih.2⟩
    · exact ⟨rfl, rfl⟩

theorem someRun {r : Char → Bool} (hr : ∀ c, p c → r c = false) : Aloof p (Scan.someRun r) := by
  apply (run hr).bind
  intro ds
  split
  · exact fail
  · exact pure _

/-- A choice by the next character, if the characters of the sort are treated like the end. -/
theorem peekBind {k : Option Char → Scan α} (hk : ∀ c, Aloof p (k c))
    (hp : ∀ c, p c → k (some c) = k none) : Aloof p (peek? >>= k) := by
  intro x q hq
  cases x with
  | nil =>
    cases q with
    | nil => exact hk none hq
    | cons d q =>
      show k (some d) ([] ++ d :: q) = (k none []).map _
      rw [hp d (opens_cons.mp hq)]
      exact hk none hq
  | cons c x => exact hk (some c) hq

/-- A choice by the next character, if those of the sort are refused. -/
theorem nextBind {k : Char → Scan α} (hk : ∀ c, Aloof p (k c)) (hp : ∀ c, p c → k c = Scan.fail) :
    Aloof p (Scan.next >>= k) := by
  intro x q hq
  cases x with
  | nil =>
    cases q with
    | nil => rfl
    | cons d q =>
      show k d q = none
      exact congrFun (hp d (opens_cons.mp hq)) q
  | cons c x => exact hk c hq

end Aloof

/-- What a scanner takes of a text in front of two others, if it is not concerned with them. -/
theorem swap_of_append {s : Scan α} {x y q q' : List Char} {a : α}
    (hq : s (x ++ q) = (s x).map fun r => (r.1, r.2 ++ q))
    (hq' : s (x ++ q') = (s x).map fun r => (r.1, r.2 ++ q'))
    (h : s (x ++ q) = some (a, y ++ q)) : s (x ++ q') = some (a, y ++ q') := by
  rw [hq] at h
  obtain ⟨⟨b, z⟩, hx, hr⟩ := Option.map_eq_some_iff.mp h
  obtain rfl : b = a := (Prod.mk.inj hr).1
  obtain rfl : z = y := List.append_cancel_right (Prod.mk.inj hr).2
  rw [hq', hx]
  rfl

/-- What an aloof scanner takes in front of one text of the sort it takes in front of another. -/
theorem Aloof.swap {s : Scan α} (hs : Aloof p s) {x y q q' : List Char} {a : α}
    (h : s (x ++ q) = some (a, y ++ q)) (hq : Opens p q) (hq' : Opens p q') :
    s (x ++ q') = some (a, y ++ q') := swap_of_append (hs hq) (hs hq') h

end Rules

/-! Steps. -/

/-- As many steps as there are characters, and one more, are enough. -/
def Steady {α : Type} (s : Nat → Scan α) : Prop :=
  ∀ ⦃n m : Nat⦄ ⦃cs : List Char⦄ ⦃r : α × List Char⦄,
    s n cs = some r → cs.length < m → s m cs = some r

theorem Aloof.stepwise {α : Type} {p : Char → Bool} {s : Nat → Scan α} (hs : ∀ n, Aloof p (s n))
    (h : Steady s) : Aloof p fun cs => s (cs.length + 1) cs := by
  intro x q hq
  have hsteps : s ((x ++ q).length + 1) x = s (x.length + 1) x := by
    apply Option.ext
    intro r
    constructor
    · intro hr
      exact h hr (by omega)
    · intro hr
      exact h hr (by rw [List.length_append]; omega)
  show s ((x ++ q).length + 1) (x ++ q) = (s (x.length + 1) x).map _
  rw [hs _ hq, hsteps]

/-! Escapes. -/

namespace Escape

variable {p : Char → Bool}

/-- No character of the sort is part of an escape by a number. -/
structure NoDigit (p : Char → Bool) : Prop where
  digit : ∀ c, p c → hexValue? c = none
  opening : p '\x7b' = false
  closing : p '\x7d' = false

theorem hexNumber?_of_mem {cs : List Char} {c : Char} (hc : c ∈ cs) (h : hexValue? c = none) :
    hexNumber? cs = none := by
  have hnone : cs.mapM hexValue? = none := by
    induction cs with
    | nil => cases hc
    | cons d ds ih =>
      rw [List.mapM_cons]
      obtain rfl | hc := List.mem_cons.1 hc
      · rw [h]
        rfl
      · rw [ih hc]
        cases hexValue? d <;> rfl
  rw [hexNumber?, hnone, Option.map_none]

theorem not_octal_of_hexValue? {c : Char} (h : hexValue? c = none) :
    ¬ ('0' ≤ c && c ≤ '7') = true := by
  intro hc
  obtain ⟨hlow, hhigh⟩ : '0' ≤ c ∧ c ≤ '7' := by simpa using hc
  have hdigit : c.isDigit := by
    have h7 : ('7' : Char) ≤ '9' := by decide
    simpa [Char.isDigit] using ⟨hlow, Char.le_trans hhigh h7⟩
  simp [hexValue?, hdigit] at h

theorem aloof_lineFeed (hbreak : p '\n' = false) : Aloof p lineFeed := by
  have hplain {d : Char} (hd : d ≠ '\n') (ds : List Char) :
      lineFeed (d :: ds) = some ((), d :: ds) := by
    simp [lineFeed, hd]
  intro x q hq
  cases x with
  | nil =>
    cases q with
    | nil => rfl
    | cons d q =>
      have hd : d ≠ '\n' := by
        rintro rfl
        simp [opens_cons.mp hq] at hbreak
      rw [List.nil_append, hplain hd]
      rfl
  | cons d x =>
    by_cases hd : d = '\n'
    · subst hd
      rfl
    · rw [List.cons_append, hplain hd, hplain hd]
      rfl

variable (hp : NoDigit p)
include hp

theorem aloof_fixed (n : Nat) : Aloof p (fixed n) := by
  intro x q hq
  rw [fixed_apply, fixed_apply]
  by_cases hn : n ≤ x.length
  · rw [List.take_append_of_le_length hn, List.drop_append_of_le_length hn, if_pos hn,
      if_pos (Nat.le_trans hn (by simp)), Option.map_map]
    rfl
  · rw [if_neg hn]
    cases q with
    | nil => rw [List.append_nil, if_neg hn, Option.map_none]
    | cons d q =>
      have hmem : d ∈ (x ++ d :: q).take n := by
        obtain ⟨m, hm⟩ : ∃ m, n - x.length = m + 1 := ⟨n - x.length - 1, by omega⟩
        simp [List.take_append, hm]
      rw [hexNumber?_of_mem hmem (hp.digit d (opens_cons.mp hq))]
      split <;> rfl

theorem aloof_braced : Aloof p braced := by
  apply (Aloof.someRun ?_).bind
  · intro ds
    apply (Aloof.char hp.closing).bind
    intro _
    split
    · exact .ite (.pure _) .fail
    · exact .fail
  · intro c hc
    rw [hp.digit c hc, Option.isSome_none]

theorem aloof_unicode : Aloof p unicode := by
  apply Aloof.peekBind
  · intro c?
    split
    · exact (Aloof.char hp.opening).bind fun _ => aloof_braced hp
    · exact aloof_fixed hp 4
  · intro c hc
    split
    · next h =>
      obtain rfl := Option.some.inj h
      simp [hp.opening] at hc
    · rfl

/-- Behind its first character an escape is aloof from what is no part of it. -/
theorem unit_append (hbreak : p '\n' = false) (c : Char) {x q : List Char} (hq : Opens p q) :
    Escape.unit (c :: x ++ q) = (Escape.unit (c :: x)).map fun r => (r.1, r.2 ++ q) := by
  have hcontinued : Aloof p (lineFeed >>= fun _ => (pure none : Scan (Option Nat))) :=
    (aloof_lineFeed hbreak).bind fun _ => .pure _
  simp only [Escape.unit, List.cons_append, scan_bind_apply, Scan.next, Option.bind_some]
  split
  iterate 6 rfl
  · exact ((aloof_fixed hp 2).map _) hq
  · exact ((aloof_unicode hp).map _) hq
  · exact hcontinued hq
  · refine Aloof.peekBind (fun c? => ?_) (fun d hd => ?_) hq
    · split
      · exact .ite .fail (.pure _)
      · exact .pure _
    · exact if_neg (not_octal_of_hexValue? (hp.digit d hd))
  · split
    · rfl
    · split <;> rfl

end Escape
end ApiSurface.Source
