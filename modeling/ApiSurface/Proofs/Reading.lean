import ApiSurface.Source.Grammar
import Mathlib.Data.List.Forall2

/-! What a computation has done when it hands on a result: every sequence is taken apart into its
steps, for results in general and for parsers, and a repetition is the list of its readings. -/
namespace ApiSurface

/-! Results. -/

theorem Except.bind_eq_ok {ε α β : Type} {x : Except ε α} {f : α → Except ε β} {b : β} :
    (x >>= f) = .ok b ↔ ∃ a, x = .ok a ∧ f a = .ok b := by
  cases x with
  | error e => exact ⟨nofun, fun ⟨_, h, _⟩ => nomatch h⟩
  | ok a => exact ⟨fun h => ⟨a, rfl, h⟩, fun ⟨_, h, hf⟩ => by cases h; exact hf⟩

theorem Except.map_eq_ok {ε α β : Type} {x : Except ε α} {f : α → β} {b : β} :
    f <$> x = .ok b ↔ ∃ a, x = .ok a ∧ f a = b := by
  cases x with
  | error e => exact ⟨nofun, fun ⟨_, h, _⟩ => nomatch h⟩
  | ok a =>
    refine ⟨fun h => ⟨a, rfl, Except.ok.inj h⟩, ?_⟩
    rintro ⟨_, h, rfl⟩
    cases h
    rfl

@[simp] theorem Except.mapError_ok {ε ε' α : Type} (h : ε → ε') (a : α) :
    (Except.ok a : Except ε α).mapError h = .ok a := rfl

@[simp] theorem Except.mapError_error {ε ε' α : Type} (h : ε → ε') (e : ε) :
    (Except.error e : Except ε α).mapError h = .error (h e) := rfl

@[simp] theorem Except.mapError_pure {ε ε' α : Type} (h : ε → ε') (a : α) :
    (pure a : Except ε α).mapError h = pure a := rfl

theorem Except.mapError_eq_ok {ε ε' α : Type} {h : ε → ε'} {x : Except ε α} {a : α} :
    x.mapError h = .ok a ↔ x = .ok a := by cases x <;> simp

theorem Except.mapError_eq_error {ε ε' α : Type} {h : ε → ε'} {x : Except ε α} {e : ε'} :
    x.mapError h = .error e ↔ ∃ e', x = .error e' ∧ h e' = e := by
  cases x <;> simp

/-- All of a list is mapped if every element is, in order. -/
theorem Except.mapM_eq_ok {ε α β : Type} {f : α → Except ε β} {as : List α} {bs : List β} :
    as.mapM f = .ok bs ↔ List.Forall₂ (fun a b => f a = .ok b) as bs := by
  induction as generalizing bs with
  | nil =>
    constructor
    · rintro h
      cases h
      exact .nil
    · rintro ⟨⟩
      rfl
  | cons a as ih =>
    simp only [List.mapM_cons, Except.bind_eq_ok, ih]
    constructor
    · rintro ⟨b, hb, bs', hbs, h⟩
      cases h
      exact .cons hb hbs
    · rintro (_ | ⟨hb, hbs⟩)
      exact ⟨_, hb, _, hbs, rfl⟩

end ApiSurface

namespace ApiSurface.Source

/-! The next token is one thing only. -/

namespace Ahead

variable {ts : List Token} {s s' w w' : String}

theorem symbol_iff : symbol s ts ↔ ∃ t rest, ts = t :: rest ∧ t.lexeme = .symbol s := by
  cases ts <;> simp [symbol, lexeme]

theorem word_iff : word w ts ↔ ∃ t rest, ts = t :: rest ∧ t.lexeme = .word w := by
  cases ts <;> simp [word, lexeme]

theorem word_of_symbol (h : symbol s ts) : word w ts = false := by
  obtain ⟨t, rest, rfl, ht⟩ := symbol_iff.1 h
  simp [word, lexeme, ht]

theorem symbol_of_word (h : word w ts) : symbol s ts = false := by
  obtain ⟨t, rest, rfl, ht⟩ := word_iff.1 h
  simp [symbol, lexeme, ht]

theorem symbol_of_symbol (h : symbol s ts) (hs : s ≠ s') : symbol s' ts = false := by
  obtain ⟨t, rest, rfl, ht⟩ := symbol_iff.1 h
  simp [symbol, lexeme, ht, hs]

theorem word_of_word (h : word w ts) (hw : w ≠ w') : word w' ts = false := by
  obtain ⟨t, rest, rfl, ht⟩ := word_iff.1 h
  simp [word, lexeme, ht, hw]

end Ahead

namespace Parse

variable {α β : Type}

/-! Sequences. -/

theorem bind_apply (p : Parse α) (k : α → Parse β) (ts : List Token) :
    (p >>= k) ts = (p ts).bind fun x => k x.1 x.2 := rfl

theorem bind_eq_some {p : Parse α} {f : α → Parse β} {ts : List Token} {r : β × List Token} :
    (p >>= f) ts = some r ↔ ∃ a mid, p ts = some (a, mid) ∧ f a mid = some r := by
  show (p ts).bind (fun x => f x.1 x.2) = some r ↔ _
  simp [Option.bind_eq_some_iff]

theorem map_apply (f : α → β) (p : Parse α) (ts : List Token) :
    (f <$> p) ts = (p ts).map fun x => (f x.1, x.2) := by
  show (p ts).bind (fun x => some (f x.1, x.2)) = _
  cases p ts <;> rfl

theorem map_eq_some {f : α → β} {p : Parse α} {ts : List Token} {r : β × List Token} :
    (f <$> p) ts = some r ↔ ∃ a mid, p ts = some (a, mid) ∧ (f a, mid) = r := by
  show (p ts).bind (fun x => some (f x.1, x.2)) = some r ↔ _
  simp [Option.bind_eq_some_iff]

theorem pure_eq_some {a : α} {ts : List Token} {r : α × List Token} :
    (pure a : Parse α) ts = some r ↔ (a, ts) = r :=
  Option.some_inj

@[simp] theorem pure_apply (a : α) (ts : List Token) : (pure a : Parse α) ts = some (a, ts) := rfl

/-! Look-aheads and conditions go on at once. -/

@[simp] theorem sees_bind (p : Ahead) (f : Bool → Parse β) (ts : List Token) :
    (sees p >>= f) ts = f (p ts) ts := rfl

@[simp] theorem takes_bind (p : Ahead) (f : Bool → Parse β) (ts : List Token) :
    (takes p >>= f) ts = if p ts then f true ts.tail else f false ts := by
  show (takes p ts).bind (fun x => f x.1 x.2) = _
  unfold takes
  split <;> rfl

theorem exists_of_offset_bind {f : Nat → Parse β} {ts : List Token} {r : β × List Token}
    (h : (offset >>= f) ts = some r) : ∃ start, f start ts = some r := by
  cases ts with
  | nil => cases h
  | cons t ts => exact ⟨_, h⟩

@[simp] theorem require_bind (b : Bool) (f : Unit → Parse β) (ts : List Token) :
    (require b >>= f) ts = if b then f () ts else none := by
  cases b <;> rfl

/-- A choice by the next token, which is taken if it is the one asked for. -/
theorem takes_ite_eq_some {p : Ahead} {q q' : Parse β} {ts : List Token} {r : β × List Token} :
    (takes p >>= fun b => if b then q else q') ts = some r ↔
      p ts ∧ q ts.tail = some r ∨ p ts = false ∧ q' ts = some r := by
  rw [takes_bind]
  split <;> simp [*]

theorem sees_ite_eq_some {p : Ahead} {q q' : Parse β} {ts : List Token} {r : β × List Token} :
    (sees p >>= fun b => if b then q else q') ts = some r ↔
      p ts ∧ q ts = some r ∨ p ts = false ∧ q' ts = some r := by
  rw [sees_bind]
  split <;> simp [*]

theorem attempt_eq_some {p : Parse α} {ts rest : List Token} {a? : Option α} :
    attempt p ts = some (a?, rest) ↔
      (∃ a, a? = some a ∧ p ts = some (a, rest)) ∨ a? = none ∧ p ts = none ∧ rest = ts := by
  unfold attempt
  split
  · next a mid h =>
    simp only [Option.some.injEq, Prod.mk.injEq, h, reduceCtorEq, false_and, and_false, or_false]
    exact ⟨fun ⟨ha, hr⟩ => ⟨a, ha.symm, rfl, hr⟩, fun ⟨_, ha, e, hr⟩ => ⟨by rw [ha, e], hr⟩⟩
  · next h => simp [h, eq_comm]

/-! Single tokens. -/

theorem symbol_bind_eq_some {s : String} {f : Unit → Parse β} {ts : List Token}
    {r : β × List Token} : (symbol s >>= f) ts = some r ↔
      ∃ t us, ts = t :: us ∧ t.lexeme = .symbol s ∧ f () us = some r := by
  rw [bind_eq_some]
  constructor
  · rintro ⟨_, mid, h, hf⟩
    unfold symbol at h
    split at h
    · next hs =>
      obtain ⟨t, us, rfl, ht⟩ := Ahead.symbol_iff.1 hs
      cases h
      exact ⟨t, us, rfl, ht, hf⟩
    · cases h
  · rintro ⟨t, us, rfl, ht, hf⟩
    exact ⟨(), us, symbol_cons ht us, hf⟩

theorem word_bind_eq_some {w : String} {f : Unit → Parse β} {ts : List Token}
    {r : β × List Token} : (word w >>= f) ts = some r ↔
      ∃ t us, ts = t :: us ∧ t.lexeme = .word w ∧ f () us = some r := by
  rw [bind_eq_some]
  constructor
  · rintro ⟨_, mid, h, hf⟩
    unfold word at h
    split at h
    · next hs =>
      obtain ⟨t, us, rfl, ht⟩ := Ahead.word_iff.1 hs
      cases h
      exact ⟨t, us, rfl, ht, hf⟩
    · cases h
  · rintro ⟨t, us, rfl, ht, hf⟩
    exact ⟨(), us, word_cons ht us, hf⟩

theorem wordThat_eq_some {p : String → Bool} {ts rest : List Token} {w : String} :
    wordThat p ts = some (w, rest) ↔ ∃ t, ts = t :: rest ∧ t.lexeme = .word w ∧ p w := by
  constructor
  · intro h
    unfold wordThat at h
    split at h
    · split at h
      · cases h
        exact ⟨_, rfl, rfl, ‹_›⟩
      · cases h
    · cases h
  · rintro ⟨⟨_, o, b, gl⟩, rfl, rfl, hp⟩
    simp [wordThat, hp]

theorem given_eq_some {p : Ahead} {q : Parse α} {ts rest : List Token} {a? : Option α} :
    given p q ts = some (a?, rest) ↔
      (p ts ∧ ∃ a, a? = some a ∧ q ts = some (a, rest)) ∨ p ts = false ∧ a? = none ∧ rest = ts := by
  unfold given
  split
  · next hp =>
    rw [map_eq_some]
    simp only [hp, Bool.true_eq_false, false_and, or_false, true_and]
    constructor
    · rintro ⟨a, mid, h, e⟩
      cases e
      exact ⟨a, rfl, h⟩
    · rintro ⟨a, rfl, h⟩
      exact ⟨a, rest, h, rfl⟩
  · next hp => simp [hp, eq_comm]

/-! Results of some sort. -/

/-- All results of a parser have a property. -/
def Yields (p : Parse α) (P : α → Prop) : Prop :=
  ∀ ⦃ts a rest⦄, p ts = some (a, rest) → P a

namespace Yields

variable {P : α → Prop} {Q : β → Prop}

theorem pure {a : α} (h : P a) : Yields (Pure.pure a) P := by
  rintro ts b rest hb
  cases hb
  exact h

theorem refuse : Yields (refuse : Parse α) P := nofun

theorem bind {p : Parse α} {f : α → Parse β} (h : ∀ a, Yields (f a) Q) : Yields (p >>= f) Q := by
  rintro ts b rest hb
  obtain ⟨a, mid, -, hf⟩ := bind_eq_some.1 hb
  exact h a hf

/-- What is read first may decide about what comes of it. -/
theorem bind_of {p : Parse α} {f : α → Parse β} (hp : Yields p P)
    (h : ∀ a, P a → Yields (f a) Q) : Yields (p >>= f) Q := by
  rintro ts b rest hb
  obtain ⟨a, mid, ha, hf⟩ := bind_eq_some.1 hb
  exact h a (hp ha) hf

theorem map {f : α → β} {p : Parse α} (h : Yields p fun a => Q (f a)) : Yields (f <$> p) Q := by
  rintro ts b rest hb
  obtain ⟨a, mid, ha, e⟩ := map_eq_some.1 hb
  cases e
  exact h ha

theorem ite {c : Prop} [Decidable c] {p q : Parse α} (hp : Yields p P) (hq : Yields q P) :
    Yields (if c then p else q) P := by
  split
  · exact hp
  · exact hq

theorem advancing {p : Parse (Option α)} {P : Option α → Prop} (h : Yields p P) :
    Yields (advancing p) P :=
  fun _ _ _ hread => h (of_advancing hread)

theorem growFor {step : α → Parse (Option α)} (h : ∀ a, P a → Yields (step a) (∀ b ∈ ·, P b))
    (n : Nat) {a : α} (ha : P a) : Yields (growFor step n a) P := by
  induction n generalizing a with
  | zero => exact refuse
  | succ n ih =>
    refine (h a ha).bind_of fun b? hb => ?_
    cases b? with
    | none => exact pure ha
    | some b => exact ih (hb b rfl)

theorem grow {step : α → Parse (Option α)} (h : ∀ a, P a → Yields (step a) (∀ b ∈ ·, P b))
    {a : α} (ha : P a) : Yields (grow step a) P :=
  fun _ _ _ hread => growFor (fun a ha => (h a ha).advancing) _ ha hread

end Yields

/-! Repetitions. -/

/-- A parser reads again and again while a predicate holds: its results in order, and the tokens
that are left. -/
inductive Repeats (p : Ahead) (item : Parse α) : List Token → List α → List Token → Prop
  | done {ts} : p ts = false → Repeats p item ts [] ts
  | more {ts mid rest a as} :
      p ts → item ts = some (a, mid) → Repeats p item mid as rest → Repeats p item ts (a :: as) rest

theorem repeats_of_iterateFor {p : Ahead} {item : Parse α} {n : Nat} {ts rest : List Token}
    {as : List α} (h : iterateFor (advancing (given p item)) n ts = some (as, rest)) :
    Repeats p item ts as rest := by
  induction n generalizing ts as with
  | zero => cases h
  | succ n ih =>
    obtain ⟨a?, mid, hstep, h⟩ := bind_eq_some.1 h
    replace hstep := of_advancing hstep
    unfold given at hstep
    split at hstep
    · next hp =>
      obtain ⟨a, mid', hitem, e⟩ := map_eq_some.1 hstep
      cases e
      obtain ⟨as', rest', hrec, e⟩ := map_eq_some.1 h
      cases e
      exact .more hp hitem (ih hrec)
    · next hp =>
      cases hstep
      cases h
      exact .done (by simpa using hp)

theorem repeats_of_during {p : Ahead} {item : Parse α} {ts rest : List Token} {as : List α}
    (h : during p item ts = some (as, rest)) : Repeats p item ts as rest :=
  repeats_of_iterateFor h

/-- Where the readings stop, the predicate fails. -/
theorem Repeats.stops {p : Ahead} {item : Parse α} {ts rest : List Token} {as : List α}
    (h : Repeats p item ts as rest) : p rest = false := by
  induction h with
  | done h => exact h
  | more _ _ _ ih => exact ih

theorem during_of_false {p : Ahead} {item : Parse α} {ts : List Token} (h : p ts = false) :
    during p item ts = some ([], ts) :=
  iterateFor_done (advancing_of_none (given_of_false h)) _

theorem length_lt_of_advancing {p : Parse (Option α)} {ts rest : List Token} {a : α}
    (h : advancing p ts = some (some a, rest)) : rest.length < ts.length := by
  unfold advancing at h
  split at h
  · split at h
    · next hl =>
      cases h
      exact hl
    · cases h
  · next hne => exact absurd h (hne _ _)

/-- As many steps as there are tokens, and one more, are enough. -/
theorem iterateFor_advancing (p : Parse (Option α)) {n m : Nat} {ts : List Token}
    (hn : ts.length < n) (hm : ts.length < m) :
    iterateFor (advancing p) n ts = iterateFor (advancing p) m ts := by
  induction n generalizing m ts with
  | zero => cases hn
  | succ n ih =>
    obtain _ | m := m
    · cases hm
    simp only [iterateFor, bind_apply]
    cases he : advancing p ts with
    | none => rfl
    | some x =>
      obtain ⟨a?, rest⟩ := x
      cases a? with
      | none => rfl
      | some a =>
        have hl := length_lt_of_advancing he
        have hrec := @ih m rest (by omega) (by omega)
        simp only [Option.bind_some, map_apply, hrec]

/-- Where the predicate holds, something is read, and then more. -/
theorem during_of_true {p : Ahead} {item : Parse α} {ts : List Token} (h : p ts) :
    during p item ts = (item ts).bind fun x =>
      if x.2.length < ts.length then (during p item x.2).map fun y => (x.1 :: y.1, y.2)
      else none := by
  have hstep : advancing (given p item) ts = (item ts).bind fun x =>
      if x.2.length < ts.length then some (some x.1, x.2) else none := by
    simp only [advancing, given, h, if_true, map_apply]
    cases item ts <;> rfl
  show iterateFor (advancing (given p item)) (ts.length + 1) ts = _
  simp only [iterateFor, bind_apply, hstep]
  cases item ts with
  | none => rfl
  | some x =>
    by_cases hl : x.2.length < ts.length
    · simp only [Option.bind_some, hl, if_true, map_apply, during, iterate]
      rw [iterateFor_advancing _ hl (Nat.lt_succ_self _)]
    · simp [hl]

/-- One more reading in front of others. -/
theorem during_cons {p : Ahead} {item : Parse α} {ts mid rest : List Token} {a : α} {as : List α}
    (h : p ts) (hitem : item ts = some (a, mid)) (hl : mid.length < ts.length)
    (hmore : during p item mid = some (as, rest)) : during p item ts = some (a :: as, rest) := by
  rw [during_of_true h, hitem, Option.bind_some, if_pos hl, hmore]
  rfl

theorem growFor_advancing (step : α → Parse (Option α)) {n m : Nat} {a : α} {ts : List Token}
    (hn : ts.length < n) (hm : ts.length < m) :
    growFor (fun a => advancing (step a)) n a ts =
      growFor (fun a => advancing (step a)) m a ts := by
  induction n generalizing m a ts with
  | zero => cases hn
  | succ n ih =>
    obtain _ | m := m
    · cases hm
    simp only [growFor, bind_apply]
    cases he : advancing (step a) ts with
    | none => rfl
    | some x =>
      obtain ⟨a?, rest⟩ := x
      cases a? with
      | none => rfl
      | some b =>
        have hl := length_lt_of_advancing he
        exact @ih m b rest (by omega) (by omega)

/-- A value grows step by step, and every step takes a token at least. -/
inductive Grows (step : α → Parse (Option α)) : α → List Token → α → List Token → Prop
  | done {a ts} : Grows step a ts a ts
  | more {a b c ts mid rest} : step a ts = some (some b, mid) → mid.length < ts.length →
      Grows step b mid c rest → Grows step a ts c rest

/-- A last step behind the others. -/
theorem Grows.concat {step : α → Parse (Option α)} {a b c : α} {ts mid rest : List Token}
    (h : Grows step a ts b mid) (hstep : step b mid = some (some c, rest))
    (hl : rest.length < mid.length) : Grows step a ts c rest := by
  induction h with
  | done => exact .more hstep hl .done
  | more hfirst hlt _ ih => exact .more hfirst hlt (ih hstep hl)

/-- A value has grown step by step, up to one that no step makes grow. -/
theorem grows_of_grow {step : α → Parse (Option α)} {a b : α} {ts rest : List Token}
    (h : grow step a ts = some (b, rest)) :
    ∃ mid, Grows step a ts b mid ∧ step b mid = some (none, rest) := by
  unfold grow at h
  generalize ts.length + 1 = n at h
  induction n generalizing a ts with
  | zero => cases h
  | succ n ih =>
    obtain ⟨a?, mid, hstep, h⟩ := bind_eq_some.1 h
    cases a? with
    | none =>
      cases h
      exact ⟨ts, .done, of_advancing hstep⟩
    | some c =>
      obtain ⟨mid', hgrows, hend⟩ := ih h
      exact ⟨mid', .more (of_advancing hstep) (length_lt_of_advancing hstep) hgrows, hend⟩

theorem grow_of_grows {step : α → Parse (Option α)} {a b : α} {ts mid rest : List Token}
    (h : Grows step a ts b mid) (hend : step b mid = some (none, rest)) :
    grow step a ts = some (b, rest) := by
  induction h with
  | done => exact bind_eq_some.2 ⟨none, rest, advancing_of_none hend, rfl⟩
  | more hstep hl _ ih =>
    refine bind_eq_some.2 ⟨some _, _, by simp only [advancing, hstep, if_pos hl]; rfl, ?_⟩
    exact (growFor_advancing step hl (Nat.lt_succ_self _)).trans (ih hend)

end Parse

/-! Decorators. -/

namespace Grammar

open Parse

variable {g : Grammar} {ts rest : List Token}

theorem decorators_of_not (h : Ahead.symbol "@" ts = false) :
    g.decorators ts = some (false, ts) := by
  show (during _ _ >>= _) ts = _
  exact bind_eq_some.2 ⟨[], ts, during_of_false h, rfl⟩

theorem decorators_of_at {b : Bool} (h : Ahead.symbol "@" ts)
    (hd : g.decorators ts = some (b, rest)) : b = true := by
  obtain ⟨ds, mid, hds, e⟩ := bind_eq_some.1 hd
  cases e
  cases repeats_of_during hds with
  | done hn => simp [h] at hn
  | more => rfl

end Grammar
end ApiSurface.Source
