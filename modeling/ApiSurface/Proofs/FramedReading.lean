import ApiSurface.Proofs.Frames
import ApiSurface.Source.Module

/-! The parsers that rules are made of, on framed tokens: single tokens, choices by a look ahead,
repetitions and operators. -/
namespace ApiSurface.Source
open Parse

/-! Data that no rule moves. -/

instance : Placed Lexeme := ⟨fun _ l => l⟩
instance : Unplaced Lexeme := ⟨fun _ _ => rfl⟩

section Rules

variable {F : Frame} {last : Bool} {s s' s₁ : List Bracket}
variable {α β : Type} [Placed α] [Placed β] {behind : α → List Bracket}

namespace Follows

/-! Single tokens. -/

/-- A parser of one token, which tells what it reads by its lexeme. -/
theorem ofLexeme [Unplaced α] {p : Parse α} {f : Lexeme → Option α} (hnil : p [] = none)
    (hcons : ∀ t ts, p (t :: ts) = (f t.lexeme).map (·, ts))
    (hf : ∀ l a, f l = some a →
      l.shift s = some s' ∧ (l ≠ .symbol ";" ∨ F.Nested s')) : Follows F false s s' p p := by
  refine ⟨fun {ts rest a} e => ?_, fun {ts rest a} e hs => ?_, fun {ts} hs => ?_⟩
  · cases ts with
    | nil => simp [hnil] at e
    | cons t ts =>
      rw [hcons] at e
      obtain ⟨a', ha, e⟩ := Option.map_eq_some_iff.1 e
      cases e
      exact .cons (hf _ _ ha).1 .refl
  · cases ts with
    | nil => simp [hnil] at e
    | cons t ts =>
      rw [hcons] at e
      obtain ⟨a', ha, e⟩ := Option.map_eq_some_iff.1 e
      cases e
      exact .inl (hs.tail (hf _ _ ha).1 (hf _ _ ha).2)
  · cases ts with
    | nil => rw [Frame.lay_nil_of_guards hs.guards, hnil, Option.map_none]
    | cons t ts =>
      rw [Frame.lay_cons, hcons, hcons, Token.lexeme_move]
      cases f t.lexeme <;> simp [Unplaced.move_eq]

theorem symbolIn {x : String} (h : (Lexeme.symbol x).shift s = some s')
    (hx : x ≠ ";" ∨ F.Nested s') : Follows F false s s' (Parse.symbol x) (Parse.symbol x) := by
  refine ofLexeme (f := fun l => if l = .symbol x then some () else none) rfl (fun t ts => ?_)
    fun l a hl => ?_
  · by_cases ht : t.lexeme = .symbol x <;> simp [Parse.symbol, Ahead.symbol, Ahead.lexeme, ht]
  · simp only [Option.ite_none_right_eq_some] at hl
    obtain ⟨rfl, -⟩ := hl
    exact ⟨h, hx.imp_left (by simpa using ·)⟩

theorem symbol {x : String} (h : Lexeme.shiftInner x s = some s') :
    Follows F false s s' (Parse.symbol x) (Parse.symbol x) := by
  obtain ⟨hx, h⟩ := Lexeme.shiftInner_eq_some.1 h
  exact symbolIn h (.inl hx)

theorem semicolon (h : F.Nested s) :
    Follows F false s s (Parse.symbol ";") (Parse.symbol ";") := symbolIn rfl (.inr h)

theorem word {w : String} : Follows F false s s (Parse.word w) (Parse.word w) := by
  refine ofLexeme (f := fun l => if l = .word w then some () else none) rfl (fun t ts => ?_)
    fun l a hl => ?_
  · by_cases ht : t.lexeme = .word w <;> simp [Parse.word, Ahead.word, Ahead.lexeme, ht]
  · simp only [Option.ite_none_right_eq_some] at hl
    obtain ⟨rfl, -⟩ := hl
    exact ⟨rfl, .inl (by simp)⟩

theorem wordThat {r : String → Bool} :
    Follows F false s s (Parse.wordThat r) (Parse.wordThat r) := by
  refine ofLexeme (f := fun l => l.word?.filter r) rfl (fun t ts => ?_) fun l a hl => ?_
  · obtain ⟨l, o, b, gl⟩ := t
    cases l with
    | word w => by_cases hw : r w <;> simp [Parse.wordThat, Lexeme.word?, Option.filter, hw]
    | _ => rfl
  · cases l with
    | word w => exact ⟨rfl, .inl (by simp)⟩
    | _ => cases hl

theorem anyWord : Follows F false s s Parse.anyWord Parse.anyWord := wordThat

theorem boundName : Follows F false s s Parse.boundName Parse.boundName := wordThat

theorem string : Follows F false s s Parse.string Parse.string := by
  refine ofLexeme (f := Lexeme.string?) rfl (fun t ts => ?_) fun l a hl => ?_
  · obtain ⟨l, o, b, gl⟩ := t
    cases l <;> rfl
  · cases l with
    | string v => exact ⟨rfl, .inl (by simp)⟩
    | _ => cases hl

theorem offset : Follows F last s s Parse.offset Parse.offset := by
  refine ⟨fun {ts rest a} e => ?_, fun {ts rest a} e hs => ?_, fun {ts} hs => ?_⟩
  · cases ts <;> cases e
    exact .refl
  · cases ts <;> cases e
    exact .inl hs
  · cases ts with
    | nil => rw [Frame.lay_nil_of_guards hs.guards]; rfl
    | cons t ts => rfl

/-- The next token, whatever it is: the rest of the parser tells what it may be. -/
theorem next {k k' : Lexeme → Parse α}
    (h : ∀ l,
      (∃ s₁, l.shift s = some s₁ ∧ l ≠ .symbol ";" ∧ FollowsTo F last s₁ behind (k l) (k' l)) ∨
        k l = Parse.refuse ∧ k' l = Parse.refuse) :
    FollowsTo F last s behind (Parse.next >>= k) (Parse.next >>= k') := by
  refine ⟨fun {ts rest a} e => ?_, fun {ts rest a} e hs => ?_, fun {ts} hs => ?_⟩
  · cases ts with
    | nil => cases e
    | cons t ts =>
      obtain ⟨s₁, hs₁, -, hk⟩ | ⟨hk, -⟩ := h t.lexeme
      · exact .cons hs₁ (hk.balances e)
      · rw [bind_apply, next_cons, Option.bind_some, hk] at e
        cases e
  · cases ts with
    | nil => cases e
    | cons t ts =>
      obtain ⟨s₁, hs₁, ht, hk⟩ | ⟨hk, -⟩ := h t.lexeme
      · exact hk.leaves e (hs.tail hs₁ (.inl ht))
      · rw [bind_apply, next_cons, Option.bind_some, hk] at e
        cases e
  · cases ts with
    | nil =>
      rw [Frame.lay_nil_of_guards hs.guards]
      rfl
    | cons t ts =>
      simp only [Frame.lay_cons, bind_apply, next_cons, Option.bind_some, Token.lexeme_move]
      obtain ⟨s₁, hs₁, ht, hk⟩ | ⟨hk, hk'⟩ := h t.lexeme
      · exact hk.same (hs.tail hs₁ (.inl ht))
      · rw [hk, hk']
        rfl

/-! Choices by a look ahead. -/

/-- A look ahead that sees the brackets up to the end. -/
theorem seesOf {p : Ahead} (h : ∀ ⦃ts⦄, F.Sees s ts → p (F.lay ts) = p ts) :
    Follows F last s s (Parse.sees p) (Parse.sees p) := by
  refine ⟨fun {ts rest a} e => ?_, fun {ts rest a} e hs => ?_, fun {ts} hs => ?_⟩
  · cases e
    exact .refl
  · cases e
    exact .inl hs
  · simp [h hs]

/-- A token of some sort, if it comes next. -/
theorem takesTo {p : Ahead}
    (hp : ∀ ⦃ts⦄, p ts →
      ∃ t rest, ts = t :: rest ∧ t.lexeme.shift s = some s₁ ∧
        (t.lexeme ≠ .symbol ";" ∨ F.Nested s₁))
    (h : ∀ ⦃ts⦄, F.Sees s ts → p (F.lay ts) = p ts) :
    FollowsTo F last s (fun b => if b then s₁ else s) (Parse.takes p) (Parse.takes p) := by
  refine ⟨fun {ts rest a} e => ?_, fun {ts rest a} e hs => ?_, fun {ts} hs => ?_⟩
  · unfold Parse.takes at e
    split at e
    · next ht =>
      obtain ⟨t, ts, rfl, hshift, -⟩ := hp ht
      cases e
      exact .cons hshift .refl
    · cases e
      exact .refl
  · unfold Parse.takes at e
    split at e
    · next ht =>
      obtain ⟨t, ts, rfl, hshift, hne⟩ := hp ht
      cases e
      exact .inl (hs.tail hshift hne)
    · cases e
      exact .inl hs
  · by_cases ht : p ts
    · obtain ⟨t, ts, rfl, -, -⟩ := hp ht
      rw [takes_of_true ht, takes_of_true ((h hs).trans ht)]
      rfl
    · rw [Bool.not_eq_true] at ht
      rw [takes_of_false ht, takes_of_false ((h hs).trans ht)]
      rfl

theorem takesOf {p : Ahead} (hp : p.Plain) (h : ∀ ⦃ts⦄, F.Sees s ts → p (F.lay ts) = p ts) :
    Follows F last s s (Parse.takes p) (Parse.takes p) := by
  have hplain : ∀ ⦃ts⦄, p ts → ∃ t rest, ts = t :: rest ∧ t.lexeme.shift s = some s ∧
      (t.lexeme ≠ .symbol ";" ∨ F.Nested s) := by
    intro ts ht
    obtain ⟨t, rest, rfl, hl⟩ := hp ht
    exact ⟨t, rest, rfl, Lexeme.shift_of_isPlain hl s, .inl (Lexeme.ne_of_isPlain hl)⟩
  have htakes : FollowsTo F last s (fun b : Bool => if b then s else s) _ _ := takesTo hplain h
  simpa only [ite_self] using htakes

theorem sees {p : Ahead} (h : p.Local) :
    Follows F last s s (Parse.sees p) (Parse.sees p) := seesOf fun _ hs => h hs.guards

theorem takes {p : Ahead} (h : p.Local ∧ p.Plain) :
    Follows F last s s (Parse.takes p) (Parse.takes p) := takesOf h.2 fun _ hs => h.1 hs.guards

theorem takesSymbol {x : String} (hp : (Lexeme.symbol x).isPlain) :
    Follows F last s s (Parse.takesSymbol x) (Parse.takesSymbol x) :=
  takes ⟨Ahead.local_symbol x, Ahead.plain_symbol hp⟩

theorem takesSemicolon (h : F.Nested s) :
    Follows F last s s (Parse.takesSymbol ";") (Parse.takesSymbol ";") := by
  have htakes : FollowsTo F last s (fun b : Bool => if b then s else s) _ _ :=
    takesTo (fun ts ht => ?_) fun _ hs => Ahead.local_symbol ";" hs.guards
  · simpa only [ite_self, Parse.takesSymbol] using htakes
  · obtain ⟨t, rest, rfl, hl⟩ := Ahead.symbol_iff.1 ht
    exact ⟨t, rest, rfl, by rw [hl]; rfl, .inr h⟩

theorem takesWord {w : String} : Follows F last s s (Parse.takesWord w) (Parse.takesWord w) :=
  takes ⟨Ahead.local_word w, Ahead.plain_word w⟩

/-- A bracket, if it comes next. -/
theorem takesBracket {p : Ahead} (x : String) (h : Lexeme.shiftInner x s = some s₁)
    (hp : p.Asks (· == .symbol x)) (hl : p.Local) :
    FollowsTo F last s (fun b => if b then s₁ else s) (Parse.takes p) (Parse.takes p) := by
  obtain ⟨hx, h⟩ := Lexeme.shiftInner_eq_some.1 h
  refine takesTo (fun ts ht => ?_) fun _ hs => hl hs.guards
  obtain ⟨t, rest, rfl, hl⟩ := hp ht
  obtain hl : t.lexeme = .symbol x := eq_of_beq hl
  exact ⟨t, rest, rfl, hl ▸ h, .inl (by simpa [hl] using hx)⟩

/-- A choice by a bracket. -/
theorem ifOpens {x : String} {p p' q q' : Parse α} (h : Lexeme.shiftInner x s = some s₁)
    (hp : Follows F last s₁ s' p p') (hq : Follows F last s s' q q') :
    Follows F last s s' (Parse.takesSymbol x >>= fun b => if b = true then p else q)
      (Parse.takesSymbol x >>= fun b => if b = true then p' else q') :=
  bind (takesBracket x h (Ahead.asks_symbol (by simp)) (by simp)) fun
    | true => hp
    | false => hq

theorem ifTakes {p : Ahead} {q q' r r' : Parse α} (h : p.Local ∧ p.Plain)
    (hq : Follows F last s s' q q') (hr : Follows F last s s' r r') :
    Follows F last s s' (Parse.takes p >>= fun b => if b = true then q else r)
      (Parse.takes p >>= fun b => if b = true then q' else r') :=
  bind (takes h) fun _ => ite hq hr

theorem ifSees {p : Ahead} {q q' r r' : Parse α} (h : p.Local) (hq : Follows F last s s' q q')
    (hr : Follows F last s s' r r') :
    Follows F last s s' (Parse.sees p >>= fun b => if b = true then q else r)
      (Parse.sees p >>= fun b => if b = true then q' else r') :=
  bind (sees h) fun _ => ite hq hr

theorem given {p : Ahead} {q q' : Parse α} (h : p.Local) (hq : Follows F last s s q q') :
    Follows F last s s (Parse.given p q) (Parse.given p q') := by
  have hsome : Follows F last s s (some <$> q) (some <$> q') := map hq fun _ => rfl
  refine ⟨fun {ts rest a} e => ?_, fun {ts rest a} e hs => ?_, fun {ts} hs => ?_⟩
  · unfold Parse.given at e
    split at e
    · exact hsome.balances e
    · cases e
      exact .refl
  · unfold Parse.given at e
    split at e
    · exact hsome.leaves e hs
    · cases e
      exact .inl hs
  · simp only [Parse.given, h hs.guards]
    split
    · exact hsome.same hs
    · rfl

theorem attempt {p p' : Parse α} (h : Follows F last s s p p') :
    Follows F last s s (Parse.attempt p) (Parse.attempt p') := by
  refine ⟨fun {ts rest a} e => ?_, fun {ts rest a} e hs => ?_, fun {ts} hs => ?_⟩
  · obtain ⟨a, -, e⟩ | ⟨-, -, rfl⟩ := attempt_eq_some.1 e
    · exact h.balances e
    · exact .refl
  · obtain ⟨a, -, e⟩ | ⟨-, -, rfl⟩ := attempt_eq_some.1 e
    · exact h.leaves e hs
    · exact .inl hs
  · simp only [Parse.attempt, h.same hs]
    cases p ts <;> rfl

theorem orElse {p p' q q' : Parse α} (hp : Follows F last s s' p p')
    (hq : Follows F last s s' q q') :
    Follows F last s s' (Parse.orElse p q) (Parse.orElse p' q') := by
  refine ⟨fun {ts rest a} e => ?_, fun {ts rest a} e hs => ?_, fun {ts} hs => ?_⟩
  · unfold Parse.orElse at e
    split at e
    · next hr => exact hp.balances (hr.trans e)
    · exact hq.balances e
  · unfold Parse.orElse at e
    split at e
    · next hr => exact hp.leaves (hr.trans e) hs
    · exact hq.leaves e hs
  · simp only [Parse.orElse, hp.same hs]
    cases p ts with
    | none => exact hq.same hs
    | some x => rfl

/-- An end of a statement takes the last semicolon only if it may. -/
theorem endStatement (h : last = true ∨ F.Nested s) :
    Follows F last s s Parse.endStatement Parse.endStatement := by
  refine ⟨fun {ts rest a} e => ?_, fun {ts rest a} e hs => ?_, fun {ts} hs => ?_⟩
  · unfold Parse.endStatement at e
    split at e
    · next ht =>
      obtain ⟨t, ts, rfl, hl⟩ := Ahead.symbol_iff.1 ht
      cases e
      exact .cons (by rw [hl]; rfl) .refl
    · split at e
      · cases e
        exact .refl
      · cases e
  · unfold Parse.endStatement at e
    split at e
    · next ht =>
      obtain ⟨t, ts, rfl, hl⟩ := Ahead.symbol_iff.1 ht
      cases e
      have hshift : t.lexeme.shift s = some s := by rw [hl]; rfl
      obtain h | h := h
      · exact (hs.tail_or_nil hshift).imp_right (⟨h, ·⟩)
      · exact .inl (hs.tail hshift (.inr h))
    · split at e
      · cases e
        exact .inl hs
      · cases e
  · simp only [Parse.endStatement, Ahead.local_symbol _ hs.guards,
      Ahead.local_statementEnd hs.guards]
    split
    · next ht =>
      obtain ⟨t, ts, rfl, hl⟩ := Ahead.symbol_iff.1 ht
      rfl
    · split <;> rfl

end Follows

/-! What would be read. -/

/-- Two parsers that read the same, whatever they leave. -/
def Glimpses (F : Frame) (s : List Bracket) (p p' : Parse Bool) : Prop :=
  ∀ ⦃ts : List Token⦄, F.Sees s ts → (p' (F.lay ts)).map (·.1) = (p ts).map (·.1)

theorem Glimpses.of {behind : Bool → List Bracket} {p p' : Parse Bool}
    (h : FollowsTo F true s behind p p') : Glimpses F s p p' := fun ts hs => by
  rw [h.same hs]
  cases p ts <;> rfl

theorem Glimpses.bind {p p' : Parse α} {k k' : α → Parse Bool}
    (hp : FollowsTo F false s behind p p')
    (hk : ∀ a, Glimpses F (behind a) (k a) (k' (move F.move a))) :
    Glimpses F s (p >>= k) (p' >>= k') := fun ts hs => by
  rw [bind_apply, bind_apply, hp.same hs]
  cases ha : p ts with
  | none => rfl
  | some x => exact hk x.1 (Follows.keeps hp ha hs)

theorem Glimpses.ite {c : Prop} [Decidable c] {p p' q q' : Parse Bool} (hp : Glimpses F s p p')
    (hq : Glimpses F s q q') : Glimpses F s (if c then p else q) (if c then p' else q') := by
  split
  · exact hp
  · exact hq

/-- A choice by a bracket. -/
theorem Glimpses.ifOpens {x : String} {p p' q q' : Parse Bool}
    (h : Lexeme.shiftInner x s = some s₁) (hp : Glimpses F s₁ p p') (hq : Glimpses F s q q') :
    Glimpses F s (Parse.takesSymbol x >>= fun b => if b = true then p else q)
      (Parse.takesSymbol x >>= fun b => if b = true then p' else q') :=
  Glimpses.bind (Follows.takesBracket x h (Ahead.asks_symbol (by simp)) (by simp)) fun
    | true => hp
    | false => hq

theorem Follows.foresees {p p' : Parse Bool} (h : Glimpses F s p p') :
    Follows F last s s (Parse.foresees p) (Parse.foresees p') := by
  have hrest {ts rest b} (e : Parse.foresees p ts = some (b, rest)) : rest = ts := by
    unfold Parse.foresees at e
    split at e <;> cases e <;> rfl
  refine ⟨fun {ts rest a} e => ?_, fun {ts rest a} e hs => ?_, fun {ts} hs => ?_⟩
  · exact hrest e ▸ .refl
  · exact .inl (hrest e ▸ hs)
  · have hb := h hs
    simp only [Parse.foresees]
    cases hp : p ts <;> cases hp' : p' (F.lay ts) <;> simp_all

namespace Follows

/-! Repetitions. -/

theorem advancing {behind : Option α → List Bracket} {p p' : Parse (Option α)}
    (h : FollowsTo F false s behind p p') :
    FollowsTo F false s behind (Parse.advancing p) (Parse.advancing p') := by
  refine ⟨fun e => h.balances (of_advancing e), fun e hs => h.leaves (of_advancing e) hs,
    fun {ts} hs => ?_⟩
  simp only [Parse.advancing, h.same hs]
  cases p ts with
  | none => rfl
  | some x =>
    obtain ⟨a?, rest⟩ := x
    cases a? with
    | none => rfl
    | some a =>
      by_cases hl : rest.length < ts.length <;> simp [hl]

theorem iterateFor {p p' : Parse (Option α)} (h : Follows F false s s p p') (n : Nat) :
    Follows F false s s (Parse.iterateFor p n) (Parse.iterateFor p' n) := by
  induction n with
  | zero => exact refuse
  | succ n ih =>
    refine bind h fun a? => ?_
    cases a? with
    | none => exact pure
    | some a => exact map ih fun _ => rfl

theorem growFor {step step' : α → Parse (Option α)}
    (h : ∀ a, FollowsTo F false (behind a) (fun b? => b?.elim s behind) (step a)
      (step' (move F.move a))) (n : Nat) (a : α) :
    Follows F false (behind a) s (Parse.growFor step n a)
      (Parse.growFor step' n (move F.move a)) := by
  induction n generalizing a with
  | zero => exact refuse
  | succ n ih =>
    refine bind (h a) fun a? => ?_
    cases a? with
    | none => exact pure
    | some b => exact ih b

theorem iterate {p p' : Parse (Option α)} (h : Follows F false s s p p') :
    Follows F last s s (Parse.iterate p) (Parse.iterate p') := by
  have hfor (n : Nat) := iterateFor (advancing h) n
  refine weaken ⟨fun e => (hfor _).balances e, fun e hs => (hfor _).leaves e hs, fun {ts} hs => ?_⟩
  have hl : ts.length < (F.lay ts).length + 1 := by
    rw [Frame.length_lay]
    omega
  rw [Parse.iterate, (hfor _).same hs, iterateFor_advancing p hl (Nat.lt_succ_self _)]
  rfl

theorem during {p : Ahead} {q q' : Parse α} (h : p.Local) (hq : Follows F false s s q q') :
    Follows F last s s (Parse.during p q) (Parse.during p q') := iterate (given h hq)

/-- What is open while a value grows may depend on the value. -/
theorem growTo (behind : α → List Bracket) {step step' : α → Parse (Option α)} {a : α}
    (h : ∀ a, FollowsTo F false (behind a) (fun b? => b?.elim s behind) (step a)
      (step' (move F.move a))) (hs₁ : behind a = s₁) :
    Follows F last s₁ s (Parse.grow step a) (Parse.grow step' (move F.move a)) := by
  have hfor (n : Nat) (a : α) : Follows F false (behind a) s
      (Parse.growFor (fun a => Parse.advancing (step a)) n a)
      (Parse.growFor (fun a => Parse.advancing (step' a)) n (move F.move a)) :=
    growFor (fun a => advancing (h a)) n a
  subst hs₁
  refine weaken ⟨fun e => (hfor _ a).balances e, fun e hs => (hfor _ a).leaves e hs,
    fun {ts} hs => ?_⟩
  have hl : ts.length < (F.lay ts).length + 1 := by
    rw [Frame.length_lay]
    omega
  rw [Parse.grow, (hfor _ a).same hs, growFor_advancing step hl (Nat.lt_succ_self _)]
  rfl

theorem grow {step step' : α → Parse (Option α)} {a : α}
    (h : ∀ a, Follows F false s s (step a) (step' (move F.move a))) :
    Follows F last s s (Parse.grow step a) (Parse.grow step' (move F.move a)) := by
  have hbehind : (fun _ : Option α => s) = fun b? => b?.elim s fun _ => s := by
    funext b?
    cases b? <;> rfl
  exact growTo (fun _ => s) (fun a => hbehind ▸ h a) rfl

theorem commaList {close : String} {item item' : Parse α}
    (hc : Lexeme.shiftInner close s = some s') (h : Follows F false s s item item') :
    Follows F last s s' (Parse.commaList close item) (Parse.commaList close item') :=
  bind (during (by simp) (bind h fun _ => ifSees (by simp) pure (bind (symbol rfl) fun _ => pure)))
    fun _ => bind (symbol hc) fun _ => pure

theorem separated {between : String} {item item' : Parse α}
    (hb : (Lexeme.symbol between).isPlain) (h : Follows F false s s item item') :
    Follows F last s s (Parse.separated between item) (Parse.separated between item') :=
  bind h fun _ => bind (during (by simp) (bind (symbolIn (Lexeme.shift_of_isPlain hb s)
    (.inl fun e => by subst e; cases hb)) fun _ => h)) fun _ => pure

end Follows
end Rules
end ApiSurface.Source
