import ApiSurface.Proofs.Displacement
import ApiSurface.Proofs.Reading

/-! Tokens in front of others. A frame moves tokens to another place and sets others behind them. A
parser of the framed tokens follows a parser of the bare ones if it reads the same and leaves the
same. A look ahead could tell what stands behind the bare tokens, if it reached their end; it does
not where they end in a semicolon and all brackets match, since no bracket is left open at the
semicolon and nothing but the end of an item reads it outside of brackets. -/
namespace ApiSurface.Source
open Parse

/-! Brackets. -/

/-- The pairs of symbols that enclose others; a hole of a template is one. -/
inductive Bracket
  | curly
  | round
  | square
  | hole
  deriving DecidableEq

namespace Lexeme

def opened? : Lexeme → Option Bracket
  | .symbol "\x7b" => some .curly
  | .symbol "(" => some .round
  | .symbol "[" => some .square
  | .template _ _ false _ => some .hole
  | _ => none

def closed? : Lexeme → Option Bracket
  | .symbol "\x7d" => some .curly
  | .symbol ")" => some .round
  | .symbol "]" => some .square
  | .template _ false _ _ => some .hole
  | _ => none

/-- What is open behind a lexeme, innermost first, given what is open before it. -/
def shift (l : Lexeme) (s : List Bracket) : Option (List Bracket) :=
  match l.closed?, s with
  | none, s => some (l.opened?.toList ++ s)
  | some b, c :: s => if c = b then some (l.opened?.toList ++ s) else none
  | some _, [] => none

def word? : Lexeme → Option String
  | .word w => some w
  | _ => none

def string? : Lexeme → Option String
  | .string v => some v
  | _ => none

/-- The lexeme is no bracket, and it ends no statement. -/
def isPlain : Lexeme → Bool
  | .symbol x => !(["\x7b", "(", "[", "\x7d", ")", "]", ";"].contains x)
  | .template _ opens closes _ => opens && closes
  | _ => true

@[simp] theorem isPlain_symbol (x : String) :
    (symbol x).isPlain = !(["\x7b", "(", "[", "\x7d", ")", "]", ";"].contains x) := rfl

theorem shift_of_isPlain {l : Lexeme} (h : l.isPlain) (s : List Bracket) :
    l.shift s = some s := by
  have hopened : l.opened? = none := by
    unfold opened?
    split <;> simp_all [isPlain]
  have hclosed : l.closed? = none := by
    unfold closed?
    split <;> simp_all [isPlain]
  simp [shift, hopened, hclosed]

theorem ne_of_isPlain {l : Lexeme} (h : l.isPlain) : l ≠ .symbol ";" := by
  rintro rfl
  cases h

/-- What is open behind a symbol that ends no statement. -/
def shiftInner (x : String) (s : List Bracket) : Option (List Bracket) :=
  if x = ";" then none else (symbol x).shift s

theorem shiftInner_eq_some {x : String} {s s' : List Bracket} :
    shiftInner x s = some s' ↔ x ≠ ";" ∧ (symbol x).shift s = some s' := by
  simp [shiftInner]

end Lexeme

/-- What is open behind tokens, unless a bracket in them closes another one than it ought to. -/
def brackets (s : List Bracket) : List Token → Option (List Bracket)
  | [] => some s
  | t :: ts => (t.lexeme.shift s).bind (brackets · ts)

@[simp] theorem brackets_nil (s : List Bracket) : brackets s [] = some s := rfl

theorem brackets_cons {t : Token} {s s' : List Bracket} (h : t.lexeme.shift s = some s')
    (ts : List Token) : brackets s (t :: ts) = brackets s' ts := by
  simp [brackets, h]

theorem brackets_append (s : List Bracket) (ts us : List Token) :
    brackets s (ts ++ us) = (brackets s ts).bind (brackets · us) := by
  induction ts generalizing s with
  | nil => rfl
  | cons t ts ih =>
    show (t.lexeme.shift s).bind (brackets · (ts ++ us)) = _
    rw [brackets, Option.bind_assoc]
    exact congrArg _ (funext fun s' => ih s')

/-- Tokens in front of the rest lead from what is open before them to what is open behind. -/
def Spans (s s' : List Bracket) (ts rest : List Token) : Prop :=
  ∃ taken, ts = taken ++ rest ∧ brackets s taken = some s'

namespace Spans

variable {s s' s'' : List Bracket} {ts mid rest : List Token}

theorem refl : Spans s s ts ts := ⟨[], rfl, rfl⟩

theorem cons {t : Token} (h : t.lexeme.shift s = some s') (hs : Spans s' s'' ts rest) :
    Spans s s'' (t :: ts) rest := by
  obtain ⟨taken, rfl, hb⟩ := hs
  exact ⟨t :: taken, rfl, (brackets_cons h taken).trans hb⟩

theorem trans (h : Spans s s' ts mid) (h' : Spans s' s'' mid rest) : Spans s s'' ts rest := by
  obtain ⟨taken, rfl, hb⟩ := h
  obtain ⟨taken', rfl, hb'⟩ := h'
  exact ⟨taken ++ taken', by rw [List.append_assoc], by rw [brackets_append, hb]; exact hb'⟩

theorem brackets_eq (h : Spans s s' ts rest) : brackets s ts = brackets s' rest := by
  obtain ⟨taken, rfl, hb⟩ := h
  rw [brackets_append, hb]
  rfl

theorem length_le (h : Spans s s' ts rest) : rest.length ≤ ts.length := by
  obtain ⟨taken, rfl, -⟩ := h
  rw [List.length_append]
  exact Nat.le_add_left ..

end Spans

/-! Frames. -/

def Token.move (f : Nat → Nat) (t : Token) : Token := { t with offset := f t.offset }

@[simp] theorem Token.lexeme_move (f : Nat → Nat) (t : Token) : (t.move f).lexeme = t.lexeme := rfl
@[simp] theorem Token.offset_move (f : Nat → Nat) (t : Token) :
    (t.move f).offset = f t.offset := rfl
@[simp] theorem Token.startsLine_move (f : Nat → Nat) (t : Token) :
    (t.move f).startsLine = t.startsLine := rfl
@[simp] theorem Token.glued_move (f : Nat → Nat) (t : Token) : (t.move f).glued = t.glued := rfl

/-- Where tokens are moved, what stands behind them, and how many of them are too many, if it
matters. -/
structure Frame where
  move : Nat → Nat
  behind : List Token
  limit : Option Nat

namespace Frame

variable {F : Frame} {s s' : List Bracket} {t : Token} {ts : List Token}

/-- Tokens in their frame. -/
def lay (F : Frame) (ts : List Token) : List Token := ts.map (·.move F.move) ++ F.behind

@[simp] theorem lay_cons (F : Frame) (t : Token) (ts : List Token) :
    F.lay (t :: ts) = t.move F.move :: F.lay ts := rfl

@[simp] theorem length_lay (F : Frame) (ts : List Token) :
    (F.lay ts).length = ts.length + F.behind.length := by simp [lay]

/-- The last token ends a statement, unless nothing stands behind it. -/
def Guards (F : Frame) (ts : List Token) : Prop :=
  F.behind = [] ∨ ts.getLast?.map Token.lexeme = some (.symbol ";")

/-- What is open is closed by the tokens, and the last one ends a statement; or nothing stands
behind them. -/
def Closes (F : Frame) (s : List Bracket) (ts : List Token) : Prop :=
  F.behind = [] ∨ brackets s ts = some [] ∧ ts.getLast?.map Token.lexeme = some (.symbol ";")

/-- Tokens that are closed and not too many. -/
structure Sees (F : Frame) (s : List Bracket) (ts : List Token) : Prop where
  closes : F.Closes s ts
  few : ∀ n ∈ F.limit, ts.length < n

theorem Sees.guards (h : F.Sees s ts) : F.Guards ts := h.closes.imp_right (·.2)

theorem lay_nil_of_guards (h : F.Guards []) : F.lay [] = [] := by
  obtain h | h := h
  · simpa [lay] using h
  · simp at h

theorem Guards.tail (h : F.Guards (t :: ts)) (ht : t.lexeme ≠ .symbol ";") : F.Guards ts := by
  refine h.imp_right fun h => ?_
  cases ts with
  | nil => simp [ht] at h
  | cons t' ts => simpa using h

/-- What stands between brackets ends behind the next token. -/
def Nested (F : Frame) (s : List Bracket) : Prop := s ≠ [] ∨ F.behind = []

theorem nested_cons (b : Bracket) (s : List Bracket) : F.Nested (b :: s) := .inl nofun

theorem Closes.tail (h : F.Closes s (t :: ts)) (hs : t.lexeme.shift s = some s')
    (ht : t.lexeme ≠ .symbol ";" ∨ F.Nested s') : F.Closes s' ts := by
  obtain h | ⟨hb, hl⟩ := h
  · exact .inl h
  rw [brackets_cons hs] at hb
  cases ts with
  | nil =>
    cases hb
    rcases ht with ht | ht | ht
    · simp [ht] at hl
    · exact absurd rfl ht
    · exact .inl ht
  | cons t' ts => exact .inr ⟨hb, by simpa using hl⟩

theorem Sees.tail (h : F.Sees s (t :: ts)) (hs : t.lexeme.shift s = some s')
    (ht : t.lexeme ≠ .symbol ";" ∨ F.Nested s') : F.Sees s' ts :=
  ⟨h.closes.tail hs ht, fun n hn => Nat.lt_of_succ_lt (h.few n hn)⟩

/-- Behind a semicolon there are tokens of the same sort, or none. -/
theorem Sees.tail_or_nil (h : F.Sees s (t :: ts)) (hs : t.lexeme.shift s = some s') :
    F.Sees s' ts ∨ ts = [] := by
  cases ts with
  | nil => exact .inr rfl
  | cons t' ts =>
    refine .inl ⟨h.closes.imp_right fun ⟨hb, hl⟩ => ?_, fun n hn => Nat.lt_of_succ_lt (h.few n hn)⟩
    rw [brackets_cons hs] at hb
    exact ⟨hb, by simpa using hl⟩

end Frame

/-- A parser and one of the framed tokens that follows it. Brackets match in all that the first
parser takes, from what is open before to what is open behind, and it leaves tokens that end in a
semicolon if it is given such; only where it is said to be the last may it take this semicolon. -/
structure FollowsTo (F : Frame) (last : Bool) (s : List Bracket) {α : Type} [Placed α]
    (behind : α → List Bracket) (p p' : Parse α) : Prop where
  balances {ts rest : List Token} {a : α} :
    p ts = some (a, rest) → Spans s (behind a) ts rest
  leaves {ts rest : List Token} {a : α} : p ts = some (a, rest) → F.Sees s ts →
    F.Sees (behind a) rest ∨ last = true ∧ rest = []
  same {ts : List Token} : F.Sees s ts →
    p' (F.lay ts) = (p ts).map fun x => (move F.move x.1, F.lay x.2)

/-- What is open behind does not depend on what is read. -/
abbrev Follows (F : Frame) (last : Bool) (s s' : List Bracket) {α : Type} [Placed α]
    (p p' : Parse α) : Prop := FollowsTo F last s (fun _ => s') p p'

/-- Two parsers that look at no tokens, the second with the moved result of the first. -/
def Still (F : Frame) {α : Type} [Placed α] (p p' : Parse α) : Prop :=
  ∃ a? : Option α, (∀ ts, p ts = a?.map (·, ts)) ∧ ∀ ts, p' ts = (move F.move a?).map (·, ts)

section Rules

variable {F : Frame} {last : Bool} {s s' s₁ : List Bracket}
variable {α β : Type} [Placed α] [Placed β] {behind : α → List Bracket} {further : β → List Bracket}

namespace Still

theorem pure {a : α} : Still F (Pure.pure a : Parse α) (Pure.pure (move F.move a)) :=
  ⟨some a, fun _ => rfl, fun _ => rfl⟩

theorem pureOf {a a' : α} (h : move F.move a = a') :
    Still F (Pure.pure a : Parse α) (Pure.pure a') := h ▸ pure

theorem refuse : Still F (refuse : Parse α) refuse := ⟨none, fun _ => rfl, fun _ => rfl⟩

theorem require {b : Bool} : Still F (require b) (require b) := by
  cases b
  · exact refuse
  · exact pure

theorem requireOf {b b' : Bool} (h : b' = b) :
    Still F (Parse.require b) (Parse.require b') := h ▸ require

theorem bind {p p' : Parse α} {k k' : α → Parse β} (hp : Still F p p')
    (hk : ∀ a, Still F (k a) (k' (move F.move a))) : Still F (p >>= k) (p' >>= k') := by
  obtain ⟨a?, h, h'⟩ := hp
  cases a? with
  | none =>
    refine ⟨none, fun ts => ?_, fun ts => ?_⟩
    · rw [bind_apply, h]
      rfl
    · rw [bind_apply, h']
      rfl
  | some a =>
    obtain ⟨b?, hb, hb'⟩ := hk a
    refine ⟨b?, fun ts => ?_, fun ts => ?_⟩
    · rw [bind_apply, h]
      exact hb ts
    · rw [bind_apply, h']
      exact hb' ts

theorem ite {c : Prop} [Decidable c] {p p' q q' : Parse α} (hp : Still F p p')
    (hq : Still F q q') : Still F (if c then p else q) (if c then p' else q') := by
  split
  · exact hp
  · exact hq

/-- A value that need not be there. -/
theorem lift [Unplaced α] (a? : Option α) :
    Still F (fun ts => a?.map (·, ts)) fun ts => a?.map (·, ts) :=
  ⟨a?, fun _ => rfl, fun _ => by rw [Unplaced.move_eq]⟩

theorem eq_of_eq_some {p p' : Parse α} (h : Still F p p') {ts rest : List Token} {a : α}
    (e : p ts = some (a, rest)) : rest = ts := by
  obtain ⟨a?, h, -⟩ := h
  rw [h] at e
  cases a? <;> cases e
  rfl

theorem apply {p p' : Parse α} (h : Still F p p') (ts : List Token) :
    p' (F.lay ts) = (p ts).map fun x => (move F.move x.1, F.lay x.2) := by
  obtain ⟨a?, h, h'⟩ := h
  rw [h, h']
  cases a? <;> rfl

theorem follows {p p' : Parse α} (h : Still F p p') : Follows F last s s p p' :=
  ⟨fun e => h.eq_of_eq_some e ▸ .refl, fun e hs => .inl (h.eq_of_eq_some e ▸ hs),
    fun {ts} _ => h.apply ts⟩

end Still

namespace Follows

theorem weaken {p p' : Parse α} (h : FollowsTo F false s behind p p') :
    FollowsTo F last s behind p p' :=
  ⟨h.balances, fun e hs => .inl (by simpa using h.leaves e hs), h.same⟩

theorem keeps {p p' : Parse α} (h : FollowsTo F false s behind p p') {ts rest : List Token}
    {a : α} (e : p ts = some (a, rest)) (hs : F.Sees s ts) : F.Sees (behind a) rest := by
  simpa using h.leaves e hs

theorem refuse : FollowsTo F last s behind (refuse : Parse α) refuse := ⟨nofun, nofun, fun _ => rfl⟩

theorem pure {a : α} : Follows F last s s (Pure.pure a) (Pure.pure (move F.move a)) :=
  Still.pure.follows

/-- As `pure`, where the moved value is written in another way. -/
theorem pureOf {a a' : α} (h : move F.move a = a') :
    Follows F last s s (Pure.pure a) (Pure.pure a') := (Still.pureOf h).follows

theorem pureTo {a a' : α} (hs : behind a = s) (h : move F.move a = a') :
    FollowsTo F last s behind (Pure.pure a) (Pure.pure a') := by
  subst hs h
  exact ⟨fun e => by cases e; exact .refl, fun e hs => by cases e; exact .inl hs, fun _ => rfl⟩

theorem require {b : Bool} : Follows F last s s (require b) (require b) := Still.require.follows

theorem requireOf {b b' : Bool} (h : b' = b) :
    Follows F last s s (Parse.require b) (Parse.require b') := (Still.requireOf h).follows

theorem ite {c : Prop} [Decidable c] {p p' q q' : Parse α} (hp : FollowsTo F last s behind p p')
    (hq : FollowsTo F last s behind q q') :
    FollowsTo F last s behind (if c then p else q) (if c then p' else q') := by
  split
  · exact hp
  · exact hq

theorem bind {p p' : Parse α} {k k' : α → Parse β} (hp : FollowsTo F false s behind p p')
    (hk : ∀ a, FollowsTo F last (behind a) further (k a) (k' (move F.move a))) :
    FollowsTo F last s further (p >>= k) (p' >>= k') := by
  refine ⟨fun {ts rest b} e => ?_, fun {ts rest b} e hs => ?_, fun {ts} hs => ?_⟩
  · obtain ⟨a, mid, ha, hb⟩ := bind_eq_some.1 e
    exact (hp.balances ha).trans ((hk a).balances hb)
  · obtain ⟨a, mid, ha, hb⟩ := bind_eq_some.1 e
    exact (hk a).leaves hb (keeps hp ha hs)
  · rw [bind_apply, bind_apply, hp.same hs]
    cases ha : p ts with
    | none => rfl
    | some x => exact (hk x.1).same (keeps hp ha hs)

/-- What looks at no tokens may stand behind the last semicolon. -/
theorem bindStill {p p' : Parse α} {k k' : α → Parse β} (hp : Follows F last s s' p p')
    (hk : ∀ a, Still F (k a) (k' (move F.move a))) :
    Follows F last s s' (p >>= k) (p' >>= k') := by
  refine ⟨fun {ts rest b} e => ?_, fun {ts rest b} e hs => ?_, fun {ts} hs => ?_⟩
  · obtain ⟨a, mid, ha, hb⟩ := bind_eq_some.1 e
    exact (hk a).eq_of_eq_some hb ▸ hp.balances ha
  · obtain ⟨a, mid, ha, hb⟩ := bind_eq_some.1 e
    exact (hk a).eq_of_eq_some hb ▸ hp.leaves ha hs
  · rw [bind_apply, bind_apply, hp.same hs]
    cases ha : p ts with
    | none => rfl
    | some x => exact (hk x.1).apply x.2

/-- What is read holds no places. -/
theorem bindFixed [Unplaced α] {p p' : Parse α} {k k' : α → Parse β}
    (hp : FollowsTo F false s behind p p')
    (hk : ∀ a, FollowsTo F last (behind a) further (k a) (k' a)) :
    FollowsTo F last s further (p >>= k) (p' >>= k') :=
  bind hp fun a => (Unplaced.move_eq F.move a).symm ▸ hk a

/-- What a parser goes on with if the first tells nothing, and then takes nothing. -/
theorem bindOption {p p' : Parse (Option α)} {k k' : Option α → Parse β}
    (hp : Follows F last s s p p')
    (hidle : ∀ {ts rest}, p ts = some (none, rest) → rest = ts)
    (hsome : ∀ a, Still F (k (some a)) (k' (some (move F.move a))))
    (hnone : Follows F last s s (k none) (k' none)) :
    Follows F last s s (p >>= k) (p' >>= k') := by
  have hrest {a mid rest} {b : β} (e : k (some a) mid = some (b, rest)) : rest = mid :=
    (hsome a).eq_of_eq_some e
  refine ⟨fun {ts rest b} e => ?_, fun {ts rest b} e hs => ?_, fun {ts} hs => ?_⟩
  · obtain ⟨a?, mid, ha, hb⟩ := bind_eq_some.1 e
    cases a? with
    | none => exact (hp.balances ha).trans (hnone.balances hb)
    | some a => exact hrest hb ▸ hp.balances ha
  · obtain ⟨a?, mid, ha, hb⟩ := bind_eq_some.1 e
    cases a? with
    | none => exact hnone.leaves hb (hidle ha ▸ hs)
    | some a => exact hrest hb ▸ hp.leaves ha hs
  · rw [bind_apply, bind_apply, hp.same hs]
    cases ha : p ts with
    | none => rfl
    | some x =>
      obtain ⟨a?, mid⟩ := x
      cases a? with
      | none => exact hnone.same (hidle ha ▸ hs)
      | some a => exact (hsome a).apply mid

theorem map {f : α → β} {f' : α → β} {p p' : Parse α} (hp : Follows F last s s' p p')
    (hf : ∀ a, move F.move (f a) = f' (move F.move a)) :
    Follows F last s s' (f <$> p) (f' <$> p') := by
  rw [← bind_pure_comp, ← bind_pure_comp]
  exact bindStill hp fun a => Still.pureOf (hf a)

end Follows

end Rules

/-! Looks ahead. -/

namespace Ahead

variable {p q : Ahead} {c : Lexeme → Bool}

/-- What the look ahead tells of framed tokens it tells of the bare ones. -/
def Local (p : Ahead) : Prop := ∀ ⦃F : Frame⦄ ⦃ts : List Token⦄, F.Guards ts → p (F.lay ts) = p ts

/-- The look ahead asks for a token of some sort. -/
def Asks (p : Ahead) (c : Lexeme → Bool) : Prop :=
  ∀ ⦃ts : List Token⦄, p ts → ∃ t rest, ts = t :: rest ∧ c t.lexeme

/-- The look ahead asks for a token that ends no statement. -/
abbrev Inner (p : Ahead) : Prop := p.Asks (· != .symbol ";")

/-- The look ahead asks for a token that ends no statement and is no bracket. -/
abbrev Plain (p : Ahead) : Prop := p.Asks Lexeme.isPlain

theorem Plain.inner (h : p.Plain) : p.Inner := by
  intro ts hp
  obtain ⟨t, rest, rfl, ht⟩ := h hp
  exact ⟨t, rest, rfl, by simpa using Lexeme.ne_of_isPlain ht⟩

/-! The sort of the token that is asked for. -/

theorem asks_lexeme {r : Lexeme → Bool} (h : ∀ l, r l → c l) : (lexeme r).Asks c := by
  intro ts hp
  cases ts with
  | nil => cases hp
  | cons t ts => exact ⟨t, ts, rfl, h _ hp⟩

theorem asks_symbol {x : String} (h : c (.symbol x)) : (symbol x).Asks c :=
  asks_lexeme fun l hl => by simpa [eq_of_beq hl] using h

theorem asks_symbolIn {xs : List String} (h : ∀ x ∈ xs, c (.symbol x)) : (symbolIn xs).Asks c :=
  asks_lexeme fun l hl => by
    cases l with
    | symbol x => exact h x (by simpa using hl)
    | _ => cases hl

theorem asks_wordThat {r : String → Bool} (h : ∀ w, c (.word w)) : (wordThat r).Asks c :=
  asks_lexeme fun l hl => by
    cases l with
    | word w => exact h w
    | _ => cases hl

theorem asks_and (h : p.Asks c) : (p.and q).Asks c := fun _ hp => h (Bool.and_eq_true _ _ ▸ hp).1

theorem asks_before (h : p.Asks c) : (p.before q).Asks c :=
  fun _ hp => h (Bool.and_eq_true _ _ ▸ hp).1

theorem asks_or (h : p.Asks c) (h' : q.Asks c) : (p.or q).Asks c :=
  fun _ hp => ((Bool.or_eq_true _ _).mp hp).elim (h ·) (h' ·)

@[simp] theorem plain_wordThat (r : String → Bool) : (wordThat r).Plain :=
  asks_wordThat fun _ => rfl
@[simp] theorem plain_word (w : String) : (word w).Plain :=
  asks_lexeme fun l hl => by rw [eq_of_beq hl]; rfl
@[simp] theorem plain_wordIn (ws : List String) : (wordIn ws).Plain := plain_wordThat _
@[simp] theorem plain_anyWord : anyWord.Plain := plain_wordThat _
@[simp] theorem plain_reference : reference.Plain := plain_wordThat _
@[simp] theorem plain_string : string.Plain := asks_lexeme fun l hl => by cases l <;> trivial
@[simp] theorem plain_bigint : bigint.Plain := asks_lexeme fun l hl => by cases l <;> trivial
@[simp] theorem plain_privateName : privateName.Plain :=
  asks_lexeme fun l hl => by cases l <;> trivial
@[simp] theorem plain_symbol {x : String} (h : (Lexeme.symbol x).isPlain) : (symbol x).Plain :=
  asks_symbol h
@[simp] theorem plain_symbolIn {xs : List String} (h : ∀ x ∈ xs, (Lexeme.symbol x).isPlain) :
    (symbolIn xs).Plain := asks_symbolIn h
@[simp] theorem plain_and (h : p.Plain) : (p.and q).Plain := asks_and h
@[simp] theorem plain_before (h : p.Plain) : (p.before q).Plain := asks_before h
@[simp] theorem plain_or (h : p.Plain) (h' : q.Plain) : (p.or q).Plain := asks_or h h'

theorem plain_guarded (b : Bool) (h : p.Plain) : Plain fun ts => b && p ts :=
  fun _ hp => h (Bool.and_eq_true _ _ ▸ hp).2

@[simp] theorem inner_word (w : String) : (word w).Inner := (plain_word w).inner
@[simp] theorem inner_wordIn (ws : List String) : (wordIn ws).Inner := (plain_wordIn ws).inner
@[simp] theorem inner_anyWord : anyWord.Inner := plain_anyWord.inner
@[simp] theorem inner_reference : reference.Inner := plain_reference.inner
@[simp] theorem inner_privateName : privateName.Inner := plain_privateName.inner
@[simp] theorem inner_symbol {x : String} (h : x ≠ ";") : (symbol x).Inner :=
  asks_symbol (by simpa using h)
@[simp] theorem inner_symbolIn {xs : List String} (h : ∀ x ∈ xs, x ≠ ";") :
    (symbolIn xs).Inner := asks_symbolIn (by simpa using h)
@[simp] theorem inner_and (h : p.Inner) : (p.and q).Inner := asks_and h

/-! Looks ahead that stay before the end. -/

@[simp] theorem local_lexeme (r : Lexeme → Bool) : (lexeme r).Local := by
  intro F ts h
  cases ts with
  | nil => rw [Frame.lay_nil_of_guards h]
  | cons t ts => rfl

@[simp] theorem local_symbol (x : String) : (symbol x).Local := local_lexeme _
@[simp] theorem local_symbolIn (xs : List String) : (symbolIn xs).Local := local_lexeme _
@[simp] theorem local_word (w : String) : (word w).Local := local_lexeme _
@[simp] theorem local_wordThat (r : String → Bool) : (wordThat r).Local := local_lexeme _
@[simp] theorem local_wordIn (ws : List String) : (wordIn ws).Local := local_wordThat _
@[simp] theorem local_anyWord : anyWord.Local := local_wordThat _
@[simp] theorem local_reference : reference.Local := local_wordThat _
@[simp] theorem local_string : string.Local := local_lexeme _
@[simp] theorem local_number : number.Local := local_lexeme _
@[simp] theorem local_bigint : bigint.Local := local_lexeme _
@[simp] theorem local_privateName : privateName.Local := local_lexeme _
@[simp] theorem local_template : template.Local := local_lexeme _

/-- A look ahead at the next token, which may tell that there is none. -/
theorem local_of_head {r : Token → Bool} {b : Bool}
    (hr : ∀ f t, r (t.move f) = r t) :
    Local fun | t :: _ => r t | [] => b := by
  intro F ts h
  cases ts with
  | nil => rw [Frame.lay_nil_of_guards h]
  | cons t ts => exact hr _ t

@[simp] theorem local_sameLine : sameLine.Local := local_of_head fun _ _ => rfl
@[simp] theorem local_glued : glued.Local := local_of_head fun _ _ => rfl
@[simp] theorem local_statementEnd : statementEnd.Local := by
  intro F ts h
  cases ts with
  | nil => rw [Frame.lay_nil_of_guards h]
  | cons t ts => rfl

@[simp] theorem local_const (b : Bool) : Local fun _ => b := fun _ _ _ => rfl

@[simp] theorem local_and (hp : p.Local) (hq : q.Local) : (p.and q).Local := fun _ _ h => by
  simp only [and, hp h, hq h]

@[simp] theorem local_or (hp : p.Local) (hq : q.Local) : (p.or q).Local := fun _ _ h => by
  simp only [or, hp h, hq h]

@[simp] theorem local_not (hp : p.Local) : p.not.Local := fun _ _ h => by
  simp only [not, hp h]

@[simp] theorem local_before (hi : p.Inner) (hp : p.Local) (hq : q.Local) :
    (p.before q).Local := by
  intro F ts h
  simp only [before, hp h]
  by_cases ht : p ts
  · obtain ⟨t, rest, rfl, hl⟩ := hi ht
    rw [Frame.lay_cons, List.tail_cons, List.tail_cons, hq (h.tail (by simpa using hl))]
  · simp [ht]

theorem local_guarded (b : Bool) (hp : p.Local) : Local fun ts => b && p ts :=
  local_and (local_const b) hp

@[simp] theorem local_words (w v : String) : (words w v).Local :=
  local_before (inner_word w) (local_word w) (local_and (local_word v) local_sameLine)

@[simp] theorem plain_words (w v : String) : (words w v).Plain := plain_before (plain_word w)

end Ahead

end ApiSurface.Source
