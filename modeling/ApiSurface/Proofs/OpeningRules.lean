import ApiSurface.Proofs.FramedModules

/-! What the rules for types do with their first token. A rule goes on with the rules of its grammar
only where it has taken a token, so that it does not matter to it that these are given to fewer
tokens alone. -/
namespace ApiSurface.Source
open Parse

/-- Tokens where they are, with nothing behind them. -/
def Frame.inPlace (limit : Option Nat) : Frame := ⟨id, [], limit⟩

@[simp] theorem Frame.lay_inPlace (limit : Option Nat) (ts : List Token) :
    (Frame.inPlace limit).lay ts = ts := by
  show ts.map (·.move id) ++ [] = ts
  rw [List.append_nil]
  exact List.map_id _

@[simp] theorem Frame.move_inPlace (limit : Option Nat) : (Frame.inPlace limit).move = id := rfl

theorem Frame.sees_inPlace {limit : Option Nat} {s : List Bracket} {ts : List Token}
    (h : ∀ n ∈ limit, ts.length < n) : (Frame.inPlace limit).Sees s ts :=
  ⟨.inl rfl, h⟩

section

variable {α : Type} [Placed α] {s s' : List Bracket} {p p' : Parse α} {n : Nat}

theorem FollowsTo.inPlace {limit : Option Nat} {behind : α → List Bracket}
    (h : FollowsTo (.inPlace limit) false s behind p p') {ts : List Token}
    (hl : ∀ n ∈ limit, ts.length < n) : p' ts = (p ts).map fun x => (move id x.1, x.2) := by
  have hsame := h.same (Frame.sees_inPlace hl)
  simp only [Frame.lay_inPlace] at hsame
  exact hsame

/-- A parser that is asked for fewer tokens only, if it is the same as ever. -/
theorem Follows.below (h : Follows (.inPlace none) false s s' p p) :
    Follows (.inPlace (some n)) false s s' p (p.within n) := by
  refine ⟨h.balances, fun e hs => .inl (Frame.sees_inPlace fun m hm => ?_), fun {ts} hs => ?_⟩
  · exact Nat.lt_of_le_of_lt (h.balances e).length_le (hs.few m hm)
  · simp only [Frame.lay_inPlace, Parse.within, if_pos (hs.few n rfl)]
    exact h.inPlace fun m hm => by cases hm

/-- A parser that depends on what it is given. -/
theorem Follows.ofEach {q : List Token → Parse α}
    (h : ∀ ts, Follows (.inPlace none) false s s' (q ts) (q ts)) :
    Follows (.inPlace none) false s s' (fun ts => q ts ts) fun ts => q ts ts := by
  refine ⟨fun {ts _ _} e => (h ts).balances e, fun {ts _ _} e hs => (h ts).leaves e hs,
    fun {ts} hs => ?_⟩
  rw [← (h ts).same hs, Frame.lay_inPlace]

theorem Follows.withinSame (h : Follows (.inPlace none) false s s p p) :
    Follows (.inPlace none) false s s (p.within n) (p.within n) :=
  Follows.within (F := .inPlace none) fun _ _ => ⟨p, p, h, rfl, rfl⟩

end

theorem Agree.within {g : Grammar} (h : Agree (.inPlace none) g g) (m k : Nat) :
    Agree (.inPlace none) (g.within m k) (g.within m k) where
  type c s := (h.type c s).withinSame
  typeOperand c s := (h.typeOperand c s).withinSame
  assignment i s := (h.assignment i s).withinSame
  unary s := (h.unary s).withinSame
  leftHand s := (h.leftHand s).withinSame
  binding d s := (h.binding d s).withinSame
  classRest a s := (h.classRest a s).withinSame
  statement f _ hs := (h.statement f hs).withinSame
  item hs := (h.item hs).withinSame

/-- Grammars of every depth read what they read. -/
theorem agree_inPlace (n : Nat) : Agree (.inPlace none) (grammar n) (grammar n) := by
  induction n with
  | zero => constructor <;> intros <;> exact Follows.refuse
  | succ n ih =>
    have hnested (ts : List Token) : Agree (.inPlace none) ((grammar n).nested ts)
      ((grammar n).nested ts) := ih.within _ _
    have hgoverned (ts : List Token) : Agree (.inPlace none) ((grammar n).governed ts)
      ((grammar n).governed ts) := ih.within _ _
    exact
      { type := fun c s => .ofEach (q := fun ts => ((grammar n).nested ts).typeRule c)
          fun ts => .typeRule (hnested ts) c
        typeOperand := fun c s => .ofEach (q := fun ts => ((grammar n).nested ts).typeOperandRule c)
          fun ts => .typeOperandRule (hnested ts) c
        assignment := fun i s => .ofEach (q := fun ts => ((grammar n).nested ts).assignmentRule i)
          fun ts => .assignmentRule (hnested ts) i
        unary := fun s => .ofEach (q := fun ts => ((grammar n).nested ts).unaryRule)
          fun ts => .unaryRule (hnested ts)
        leftHand := fun s => .ofEach (q := fun ts => ((grammar n).nested ts).leftHandRule)
          fun ts => .leftHandRule (hnested ts)
        binding := fun d s => .ofEach (q := fun ts => ((grammar n).nested ts).bindingRule d)
          fun ts => .bindingRule (hnested ts) d
        classRest := fun a s => .ofEach (q := fun ts => ((grammar n).nested ts).classRestRule a)
          fun ts => .classRestRule (hnested ts) a
        statement := fun f _ hs =>
          .ofEach (q := fun ts => ((grammar n).governed ts).statementRule f)
          fun ts => .statementRule (hgoverned ts) hs f
        item := fun hs => .ofEach (q := fun ts => ((grammar n).governed ts).itemRule)
          fun ts => .itemRule (hgoverned ts) hs }

/-- The rules of a grammar, and those for fewer than so many tokens. -/
theorem Agree.below {g : Grammar} (h : Agree (.inPlace none) g g) (n : Nat) :
    Agree (.inPlace (some n)) g (g.within n n) where
  type c s := (h.type c s).below
  typeOperand c s := (h.typeOperand c s).below
  assignment i s := (h.assignment i s).below
  unary s := (h.unary s).below
  leftHand s := (h.leftHand s).below
  binding d s := (h.binding d s).below
  classRest a s := (h.classRest a s).below
  statement f _ _ := (h.statement f (.inr rfl)).below
  item _ := (h.item (.inr rfl)).below

/-! Rules that open with a token. -/

section

variable {α β : Type} [Placed α] [Placed β] {n : Nat} {s : List Bracket} {behind : α → List Bracket}
  {further : β → List Bracket}

/-- Two parsers that read the same of up to `n` tokens. -/
structure Starts (n : Nat) (p p' : Parse α) : Prop where
  same {ts : List Token} (h : ts.length ≤ n) : p' ts = (p ts).map fun x => (move id x.1, x.2)
  keeps {ts rest : List Token} {a : α} (h : p ts = some (a, rest)) : rest.length ≤ ts.length

/-- Two parsers that read the same of up to `n` tokens, and that take one of them. -/
structure Begins (n : Nat) (p p' : Parse α) : Prop extends Starts n p p' where
  takes {ts rest : List Token} {a : α} (h : p ts = some (a, rest)) : rest.length < ts.length

namespace Starts

theorem ofFollows {p : Parse α} (h : Follows (.inPlace none) false [] [] p p) : Starts n p p :=
  ⟨fun _ => h.inPlace nofun, fun e => (h.balances e).length_le⟩

theorem sees (p : Ahead) : Starts n (Parse.sees p) (Parse.sees p) :=
  ⟨fun _ => rfl, fun e => by cases e; exact Nat.le_refl _⟩

theorem takes (p : Ahead) : Starts n (Parse.takes p) (Parse.takes p) := by
  refine ⟨fun {ts} _ => ?_, fun {ts rest a} e => ?_⟩
  · cases Parse.takes p ts <;> rfl
  · unfold Parse.takes at e
    split at e <;> cases e
    · rw [List.length_tail]
      exact Nat.sub_le ..
    · exact Nat.le_refl _

/-- A choice by a token, behind which there are fewer left. -/
theorem ifTakes {p : Ahead} {q q' r r' : Parse α} {c : Lexeme → Bool} (s : List Bracket)
    (hp : p.Asks c) (hq : Follows (.inPlace (some n)) false s [] q q') (hr : Starts n r r') :
    Starts n (Parse.takes p >>= fun b => if b = true then q else r)
      (Parse.takes p >>= fun b => if b = true then q' else r') := by
  refine ⟨fun {ts} hn => ?_, fun {ts rest a} e => ?_⟩
  · rw [takes_bind, takes_bind]
    split
    · next ht =>
      obtain ⟨t, ts, rfl, -⟩ := hp ht
      exact hq.inPlace fun m hm => by cases hm; exact hn
    · exact hr.same hn
  · obtain ⟨ht, e⟩ | ⟨-, e⟩ := takes_ite_eq_some.1 e
    · obtain ⟨t, ts, rfl, -⟩ := hp ht
      exact Nat.le_succ_of_le (hq.balances e).length_le
    · exact hr.keeps e

/-- What would be read matters, but not what would be left. -/
theorem foresees {p p' : Parse Bool}
    (h : ∀ ts : List Token, ts.length ≤ n → (p' ts).map (·.1) = (p ts).map (·.1)) :
    Starts n (Parse.foresees p) (Parse.foresees p') := by
  refine ⟨fun {ts} hn => ?_, fun {ts rest a} e => ?_⟩
  · have hb := h ts hn
    simp only [Parse.foresees]
    cases hp : p ts <;> cases hp' : p' ts <;> simp_all
  · unfold Parse.foresees at e
    split at e <;> cases e <;> exact Nat.le_refl _

theorem pure {a : α} : Starts n (Pure.pure a) (Pure.pure (move id a)) :=
  ⟨fun _ => rfl, fun e => by cases e; exact Nat.le_refl _⟩

end Starts

namespace Begins

/-- What goes on where nothing need have been taken has to take a token. -/
theorem after {p p' : Parse α} {k k' : α → Parse β} (hp : Starts n p p')
    (hk : ∀ a, Begins n (k a) (k' (move id a))) : Begins n (p >>= k) (p' >>= k') := by
  refine ⟨⟨fun {ts} hn => ?_, fun {ts rest b} e => ?_⟩, fun {ts rest b} e => ?_⟩
  · rw [bind_apply, bind_apply, hp.same hn]
    cases ha : p ts with
    | none => rfl
    | some x => exact (hk x.1).same (Nat.le_trans (hp.keeps ha) hn)
  · obtain ⟨a, mid, ha, hb⟩ := bind_eq_some.1 e
    exact Nat.le_trans ((hk a).keeps hb) (hp.keeps ha)
  · obtain ⟨a, mid, ha, hb⟩ := bind_eq_some.1 e
    exact Nat.lt_of_lt_of_le ((hk a).takes hb) (hp.keeps ha)

theorem ite {c : Prop} [Decidable c] {p p' q q' : Parse α} (hp : Begins n p p')
    (hq : Begins n q q') : Begins n (if c then p else q) (if c then p' else q') := by
  split
  · exact hp
  · exact hq

/-- Where a token has been taken there are fewer left. What is open then may depend on it. -/
theorem bindTo (behind : α → List Bracket) {p p' : Parse α} {k k' : α → Parse β}
    (hp : Begins n p p')
    (hk : ∀ a, FollowsTo (.inPlace (some n)) false (behind a) further (k a) (k' (move id a))) :
    Begins n (p >>= k) (p' >>= k') := by
  have hlt {ts rest : List Token} {b : β} (e : (p >>= k) ts = some (b, rest)) :
      rest.length < ts.length := by
    obtain ⟨a, mid, ha, hb⟩ := bind_eq_some.1 e
    exact Nat.lt_of_le_of_lt ((hk a).balances hb).length_le (hp.takes ha)
  refine ⟨⟨fun {ts} hn => ?_, fun e => (hlt e).le⟩, hlt⟩
  rw [bind_apply, bind_apply, hp.same hn]
  cases ha : p ts with
  | none => rfl
  | some x =>
    exact (hk x.1).inPlace fun m hm => by cases hm; exact Nat.lt_of_lt_of_le (hp.takes ha) hn

/-- A parser that takes a token if it tells something. -/
theorem bindOption {p p' : Parse (Option α)} {k k' : Option α → Parse β} (hp : Starts n p p')
    (htakes : ∀ {ts rest a}, p ts = some (some a, rest) → rest.length < ts.length)
    (hsome : ∀ a, Follows (.inPlace (some n)) false [] [] (k (some a)) (k' (some (move id a))))
    (hnone : Begins n (k none) (k' none)) : Begins n (p >>= k) (p' >>= k') := by
  have hlt {ts rest : List Token} {b : β} (e : (p >>= k) ts = some (b, rest)) :
      rest.length < ts.length := by
    obtain ⟨a?, mid, ha, hb⟩ := bind_eq_some.1 e
    cases a? with
    | none => exact Nat.lt_of_lt_of_le (hnone.takes hb) (hp.keeps ha)
    | some a => exact Nat.lt_of_le_of_lt ((hsome a).balances hb).length_le (htakes ha)
  refine ⟨⟨fun {ts} hn => ?_, fun e => (hlt e).le⟩, hlt⟩
  rw [bind_apply, bind_apply, hp.same hn]
  cases ha : p ts with
  | none => rfl
  | some x =>
    obtain ⟨a?, mid⟩ := x
    cases a? with
    | none => exact hnone.same (Nat.le_trans (hp.keeps ha) hn)
    | some a =>
      exact (hsome a).inPlace fun m hm => by cases hm; exact Nat.lt_of_lt_of_le (htakes ha) hn

theorem bind {p p' : Parse α} {k k' : α → Parse β} (hp : Begins n p p')
    (hk : ∀ a, Follows (.inPlace (some n)) false [] [] (k a) (k' (move id a))) :
    Begins n (p >>= k) (p' >>= k') := bindTo (fun _ => []) hp hk

theorem glimpses {p p' : Parse α} {k k' : α → Parse Bool} (s : List Bracket) (hp : Begins n p p')
    (hk : ∀ a, Glimpses (.inPlace (some n)) s (k a) (k' (move id a))) {ts : List Token}
    (hn : ts.length ≤ n) : ((p' >>= k') ts).map (·.1) = ((p >>= k) ts).map (·.1) := by
  rw [bind_apply, bind_apply, hp.same hn]
  cases ha : p ts with
  | none => rfl
  | some x =>
    have hlt := Nat.lt_of_lt_of_le (hp.takes ha) hn
    have hsame := hk x.1 (show (Frame.inPlace (some n)).Sees s x.2 from
      Frame.sees_inPlace fun m hm => by cases hm; exact hlt)
    rwa [Frame.lay_inPlace] at hsame

/-- What is read holds no places. -/
theorem bindFixed [Unplaced α] {p p' : Parse α} {k k' : α → Parse β} (hp : Begins n p p')
    (hk : ∀ a, Follows (.inPlace (some n)) false [] [] (k a) (k' a)) :
    Begins n (p >>= k) (p' >>= k') := bind hp fun a => (Unplaced.move_eq id a).symm ▸ hk a

/-- A parser of one token. -/
theorem ofLexeme [Unplaced α] {p : Parse α} {f : Lexeme → Option α} (hnil : p [] = none)
    (hcons : ∀ t ts, p (t :: ts) = (f t.lexeme).map (·, ts)) : Begins n p p := by
  have hlt {ts rest : List Token} {a : α} (e : p ts = some (a, rest)) :
      rest.length < ts.length := by
    cases ts with
    | nil => simp [hnil] at e
    | cons t ts =>
      rw [hcons] at e
      obtain ⟨a', -, e⟩ := Option.map_eq_some_iff.1 e
      cases e
      exact Nat.lt_succ_self _
  refine ⟨⟨fun {ts} _ => ?_, fun e => (hlt e).le⟩, hlt⟩
  cases p ts <;> simp [Unplaced.move_eq]

theorem next : Begins n Parse.next Parse.next := ofLexeme (f := some) rfl fun _ _ => rfl

theorem symbol {x : String} : Begins n (Parse.symbol x) (Parse.symbol x) :=
  ofLexeme (f := fun l => if l = .symbol x then some () else none) rfl fun t ts => by
    by_cases ht : t.lexeme = .symbol x <;> simp [Parse.symbol, Ahead.symbol, Ahead.lexeme, ht]

theorem word {w : String} : Begins n (Parse.word w) (Parse.word w) :=
  ofLexeme (f := fun l => if l = .word w then some () else none) rfl fun t ts => by
    by_cases ht : t.lexeme = .word w <;> simp [Parse.word, Ahead.word, Ahead.lexeme, ht]

theorem wordThat {r : String → Bool} : Begins n (Parse.wordThat r) (Parse.wordThat r) := by
  refine ofLexeme (f := fun l => l.word?.filter r) rfl fun t ts => ?_
  obtain ⟨l, o, b, gl⟩ := t
  cases l with
  | word w => by_cases hw : r w <;> simp [Parse.wordThat, Lexeme.word?, Option.filter, hw]
  | _ => rfl

theorem ifSees {p : Ahead} {q q' r r' : Parse α} (hq : Begins n q q') (hr : Begins n r r') :
    Begins n (Parse.sees p >>= fun b => if b = true then q else r)
      (Parse.sees p >>= fun b => if b = true then q' else r') :=
  .after (.sees p) fun _ => ite hq hr

theorem map {f : α → β} {f' : α → β} {p p' : Parse α} (hp : Begins n p p')
    (hf : ∀ a, move id (f a) = f' (move id a)) : Begins n (f <$> p) (f' <$> p') := by
  rw [← bind_pure_comp, ← bind_pure_comp]
  exact bind hp fun a => Follows.pureOf (hf a)

/-- A choice by a token, behind which there are fewer left. -/
theorem ifTakes {p : Ahead} {q q' r r' : Parse α} {c : Lexeme → Bool} (s : List Bracket)
    (hp : p.Asks c) (hq : Follows (.inPlace (some n)) false s [] q q') (hr : Begins n r r') :
    Begins n (Parse.takes p >>= fun b => if b = true then q else r)
      (Parse.takes p >>= fun b => if b = true then q' else r') := by
  refine ⟨.ifTakes s hp hq hr.toStarts, fun {ts rest a} e => ?_⟩
  obtain ⟨ht, e⟩ | ⟨-, e⟩ := takes_ite_eq_some.1 e
  · obtain ⟨t, ts, rfl, -⟩ := hp ht
    exact Nat.lt_succ_of_le (hq.balances e).length_le
  · exact hr.takes e

theorem separated {between : String} {item item' : Parse α}
    (hb : (Lexeme.symbol between).isPlain) (h : Begins n item item')
    (hf : Follows (.inPlace (some n)) false [] [] item item') :
    Begins n (Parse.separated between item) (Parse.separated between item') :=
  .bind h fun _ =>
    Follows.bind (Follows.during (by simp) (.bind (Follows.symbolIn
      (Lexeme.shift_of_isPlain hb []) (.inl fun e => by subst e; cases hb)) fun _ => hf))
      fun _ => Follows.pure

end Begins

end

/-! Rules for types. -/

namespace Follows

variable {n : Nat} {g g' : Grammar} (h : Agree (.inPlace (some n)) g g')

include h

theorem starts_typeParameters (allowed : List String) :
    Starts n (g.typeParameters allowed) (g'.typeParameters allowed) :=
  .ifTakes [] (Ahead.plain_symbol rfl) (bind (commaList rfl (typeParameter h allowed)) fun _ =>
    bind (requireOf (by simp)) fun _ => pure) .pure

theorem begins_parameters (c : Bool) : Begins n (g.parameters c) (g'.parameters c) :=
  .bindTo _ .symbol fun _ => commaList (s := [.round]) rfl (parameter h c false)

theorem begins_this : Begins n g.this g'.this :=
  .bind .word fun _ => ifTakes (by simp) (bind (h.type true []) fun _ => pureOf (by simp)) pure

theorem begins_assertsThis : Begins n g.assertsThis g'.assertsThis :=
  .bind .word fun _ => bind word fun _ =>
    ifTakes (by simp) (bind (h.type true []) fun _ => pureOf (by simp)) (pureOf (by simp))

omit h in
theorem begins_importedPath : Begins n Grammar.importedPath Grammar.importedPath :=
  .bind .word fun _ => bind (symbol rfl) fun _ => bind string fun _ => bind typeAttributes fun _ =>
    bind (symbol rfl) fun _ => bind (takesSymbol rfl) fun _ => ite (bind dotted fun _ => pure) pure

theorem begins_imported : Begins n g.imported g'.imported :=
  .bindFixed begins_importedPath fun (_, _) => bind (importedArguments h) fun _ => pureOf (by simp)

theorem begins_query : Begins n g.query g'.query :=
  .bind .word fun _ => ifSees (by simp)
    (bindFixed importedPath fun (_, _) => bind (importedArguments h) fun _ =>
      bind (nearArguments h) fun _ => pureOf (by simp))
    (bindFixed dotted fun _ => bind (nearArguments h) fun _ => pureOf (by simp))

omit h in
theorem begins_dotted {first rest : String → Bool} :
    Begins n (Grammar.dotted first rest) (Grammar.dotted first rest) :=
  .bind .wordThat fun _ =>
    bind (during (by simp) (bind (symbol rfl) fun _ => wordThat)) fun _ => pure

theorem begins_namedType : Begins n g.namedType g'.namedType :=
  .ifSees (begins_assertsThis h) <| .ifSees (.map .wordThat fun _ => rfl) <|
    .ifTakes [] (Ahead.plain_word _) pure <| .ifTakes [] (Ahead.plain_word _) pure <|
    .ifSees (begins_this h) <| .ifSees (begins_query h) <| .ifSees (begins_imported h) <|
    .bindFixed begins_dotted fun ws => bind (nearArguments h) fun _ => pureOf (by simp)

theorem begins_bracketedType : Begins n g.bracketedType g'.bracketedType :=
  .ifTakes [.round] (Ahead.asks_symbol (c := fun _ => true) rfl)
    (bind (h.type true _) fun _ => bind (symbol rfl) fun _ => pureOf (by simp)) <|
  .ifSees (.bindTo _ .symbol fun _ =>
    bind (commaList (s := [.square]) rfl (tupleElement h)) fun _ =>
    bind (requireOf (optionalsLast_move _ _ _)) fun _ => pureOf (by simp)) <|
  .ifSees (.bindTo _ .symbol fun _ => mapped (s := []) h) <|
  .map (.bindTo _ .symbol fun _ =>
    bind (during (by simp) (signature h (Frame.nested_cons .curly []))) fun _ =>
    bind (symbol rfl) fun _ => pure) (by simp)

omit h in
theorem begins_negative : Begins n Grammar.negative Grammar.negative :=
  .bind .symbol fun _ => next fun
    | .number _ | .bigint _ => .inl ⟨_, rfl, nofun, pure⟩
    | .word _ | .privateName _ | .string _ | .regex | .template .. | .symbol _ => .inr ⟨rfl, rfl⟩

theorem begins_template : Begins n g.template g'.template :=
  .bindTo (fun l => l.opened?.toList) .next fun
    | .template _ true true true => pure
    | .template _ true false true => map (holes h) (by simp)
    | .template _ true true false | .template _ true false false | .template _ false _ _ => refuse
    | .word _ | .privateName _ | .string _ | .number _ | .bigint _ | .regex | .symbol _ => refuse

theorem begins_primaryType : Begins n g.primaryType g'.primaryType :=
  .ifSees (begins_namedType h) <| .ifSees (begins_bracketedType h) <| .ifSees begins_negative <|
  .ifSees (begins_template h) <| .bind .next fun
    | .string _ | .number _ | .bigint _ => pure
    | .word _ | .privateName _ | .regex | .template .. | .symbol _ => refuse

theorem begins_suffixedType : Begins n g.suffixedType g'.suffixedType :=
  .bind (begins_primaryType h) fun _ => grow fun _ => suffix h

theorem begins_typeOperandRule (c : Bool) :
    Begins n (g.typeOperandRule c) (g'.typeOperandRule c) := by
  refine .bindOption (.ofFollows takesOperator) (fun {ts rest o} e => ?_)
    (fun o => map (h.typeOperand c []) (by simp [Unplaced.move_eq])) <|
    .ifTakes [] (Ahead.plain_word _)
      (bind anyWord fun _ => bind (attempt (inferredBound h c)) fun _ => pureOf (by simp))
      (begins_suffixedType h)
  obtain ⟨-, e⟩ | ⟨-, e⟩ := sees_ite_eq_some.1 e
  · obtain ⟨w, mid, hw, e⟩ := bind_eq_some.1 e
    obtain ⟨-, rfl⟩ := Prod.mk.inj (Option.some.inj e)
    exact (Begins.wordThat (n := n)).takes hw
  · cases e

omit h in
theorem begins_joined {join : String} {whole : List TypeTerm → TypeTerm}
    {part part' : Parse TypeTerm} (hj : (Lexeme.symbol join).isPlain) (hpart : Begins n part part')
    (hf : Follows (.inPlace (some n)) false [] [] part part')
    (hwhole : ∀ ts, move id (whole ts) = whole (move id ts)) :
    Begins n (Grammar.joined join whole part) (Grammar.joined join whole part') :=
  .after (.takes _) fun _ => .bind (.separated hj hpart hf) fun
    | [] => pureOf (hwhole _)
    | [_] => pure
    | _ :: _ :: _ => pureOf (hwhole _)

theorem begins_union (c : Bool) : Begins n (g.union c) (g'.union c) :=
  begins_joined rfl (begins_joined rfl (begins_typeOperandRule h c) (typeOperandRule h c) (by simp))
    (joined rfl (typeOperandRule h c) (by simp)) (by simp)

theorem begins_function (c : Bool) : Begins n (g.function c) (g'.function c) :=
  .after (starts_typeParameters h _) fun _ => .bind (begins_parameters h c) fun _ =>
    bind (symbol rfl) fun _ => bind (result h c) fun _ => pureOf (by simp)

theorem begins_constructor (c : Bool) : Begins n (g.constructor c) (g'.constructor c) :=
  .after (.takes _) fun _ => .bind .word fun _ => bind (typeParameters h _) fun _ =>
    bind (parameters h c) fun _ => bind (symbol rfl) fun _ => bind (result h c) fun _ =>
      pureOf (by simp)

theorem starts_opensFunction :
    Starts n (Parse.foresees g.opensFunction) (Parse.foresees g'.opensFunction) := by
  refine .foresees fun ts hn => ?_
  simp only [Grammar.opensFunction, sees_bind]
  split
  · rfl
  exact Begins.glimpses [.round] .symbol (fun _ =>
    .bind (sees (by simp)) fun _ => .ite (.of pure) <|
    .bind (takes (by simp)) fun _ => .bind (sees (by simp)) fun _ =>
      have harrow : Glimpses (.inPlace (some n)) [.round] _ _ :=
        .ifOpens rfl (.of (sees (by simp))) (.of (sees (by simp)))
      .ite (.bind (h.binding false _) fun _ => harrow) (.bind anyWord fun _ => harrow)) hn

theorem begins_unconditional (c : Bool) : Begins n (g.unconditional c) (g'.unconditional c) :=
  .after (starts_opensFunction h) fun _ => .ite (begins_function h c) <|
    .ifSees (begins_constructor h c) (begins_union h c)

theorem begins_typeRule (c : Bool) : Begins n (g.typeRule c) (g'.typeRule c) :=
  .bind (begins_unconditional h c) fun _ => ifSees (Ahead.local_guarded c (by simp))
    (bind word fun _ => bind (h.type false []) fun _ => bind (symbol rfl) fun _ =>
      bind (h.type true []) fun _ => bind (symbol rfl) fun _ => bind (h.type true []) fun _ =>
        pureOf (by simp))
    pure

end Follows

/-! It does not matter to a rule for types how few tokens the rules nested in it are given. -/

theorem eq_of_opens {α : Type} [Placed α] {n : Nat} {p p' : Parse α} {ts : List Token}
    (h : Begins n p p') (hp : Follows (.inPlace none) false [] [] p p) (hn : ts.length ≤ n) :
    p' ts = p ts :=
  (h.same hn).trans (hp.inPlace nofun).symm

theorem type_grammar_succ (n : Nat) (c : Bool) :
    (grammar (n + 1)).type c = (grammar n).typeRule c := by
  funext ts
  have hopens := Follows.begins_typeRule ((agree_inPlace n).below ts.length) c
  show ((grammar n).nested ts).typeRule c ts = _
  exact eq_of_opens hopens (Follows.typeRule (agree_inPlace n) c) (Nat.le_refl _)

theorem typeOperand_grammar_succ (n : Nat) (c : Bool) :
    (grammar (n + 1)).typeOperand c = (grammar n).typeOperandRule c := by
  funext ts
  have hopens := Follows.begins_typeOperandRule ((agree_inPlace n).below ts.length) c
  show ((grammar n).nested ts).typeOperandRule c ts = _
  exact eq_of_opens hopens (Follows.typeOperandRule (agree_inPlace n) c) (Nat.le_refl _)

end ApiSurface.Source
