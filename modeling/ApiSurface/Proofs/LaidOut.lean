import ApiSurface.Proofs.Reading

/-! Tokens laid out on one line, and what parsers make of them. A parser reads lexemes in front of
what follows if it takes exactly the tokens that are laid out for them, wherever these stand. -/
namespace ApiSurface.Source

/-- Tokens with the given lexemes, none of which starts a line. -/
def Laid (ls : List Lexeme) (ts : List Token) : Prop :=
  List.Forall₂ (fun l t => t.lexeme = l ∧ t.startsLine = false) ls ts

theorem laid_nil {ts : List Token} : Laid [] ts ↔ ts = [] := List.forall₂_nil_left_iff

theorem laid_cons {l : Lexeme} {ls : List Lexeme} {ts : List Token} :
    Laid (l :: ls) ts ↔
      ∃ t ts', (t.lexeme = l ∧ t.startsLine = false) ∧ Laid ls ts' ∧ ts = t :: ts' :=
  List.forall₂_cons_left_iff

theorem laid_append {ls ls' : List Lexeme} {ts : List Token} :
    Laid (ls ++ ls') ts ↔ ∃ ts₁ ts₂, Laid ls ts₁ ∧ Laid ls' ts₂ ∧ ts = ts₁ ++ ts₂ := by
  constructor
  · intro h
    induction ls generalizing ts with
    | nil => exact ⟨[], ts, .nil, h, rfl⟩
    | cons l ls ih =>
      obtain ⟨t, ts', ht, hts, rfl⟩ := laid_cons.1 h
      obtain ⟨ts₁, ts₂, h₁, h₂, rfl⟩ := ih hts
      exact ⟨t :: ts₁, ts₂, .cons ht h₁, h₂, rfl⟩
  · rintro ⟨ts₁, ts₂, h₁, h₂, rfl⟩
    exact List.rel_append h₁ h₂

theorem Laid.length_eq {ls : List Lexeme} {ts : List Token} (h : Laid ls ts) :
    ts.length = ls.length :=
  (List.Forall₂.length_eq h).symm

theorem Laid.map_lexeme {ls : List Lexeme} {ts : List Token} (h : Laid ls ts) :
    ts.map Token.lexeme = ls := by
  induction h with
  | nil => rfl
  | cons h _ ih => rw [List.map_cons, h.1, ih]

namespace Parse

variable {α β : Type} {p : Parse α} {f : α → Parse β} {l : Lexeme} {ls ls' : List Lexeme}
  {k j : List Token → Prop} {R : α → Prop} {Q : β → Prop}

/-- A parser reads lexemes in front of what follows, and its result has a property. -/
def Reads (p : Parse α) (ls : List Lexeme) (k : List Token → Prop) (R : α → Prop) : Prop :=
  ∀ ⦃ts r⦄, Laid ls ts → k r → ∃ a, R a ∧ p (ts ++ r) = some (a, r)

/-- What is laid out, with what follows, has a property. -/
def Shows (ls : List Lexeme) (k : List Token → Prop) (P : List Token → Prop) : Prop :=
  ∀ ⦃ts r⦄, Laid ls ts → k r → P (ts ++ r)

namespace Shows

variable {P : List Token → Prop}

theorem nil (h : ∀ ts, k ts → P ts) : Shows [] k P := by
  rintro ts rest ht hk
  obtain rfl := laid_nil.1 ht
  exact h rest hk

/-- Only the next token matters. -/
theorem head (h : ∀ t ts, t.lexeme = l → t.startsLine = false → P (t :: ts)) :
    Shows (l :: ls) k P := by
  rintro ts rest hts -
  obtain ⟨t, ts', ⟨hl, hs⟩, -, rfl⟩ := laid_cons.1 hts
  exact h t _ hl hs

/-- The next token matters, and what stands behind it. -/
theorem cons {B : List Token → Prop} (h : Shows ls k B)
    (hP : ∀ t ts, t.lexeme = l → t.startsLine = false → B ts → P (t :: ts)) :
    Shows (l :: ls) k P := by
  rintro ts rest hts hk
  obtain ⟨t, ts', ⟨hl, hs⟩, ht, rfl⟩ := laid_cons.1 hts
  exact hP t _ hl hs (h ht hk)

theorem mono {P' : List Token → Prop} (h : Shows ls k P') (hP : ∀ ts, P' ts → P ts) :
    Shows ls k P :=
  fun _ _ ht hk => hP _ (h ht hk)

theorem mono_next (h : Shows ls k P) (hk : ∀ ts, j ts → k ts) : Shows ls j P :=
  fun _ _ ht hr => h ht (hk _ hr)

theorem append (h : Shows ls j P) (hk : Shows ls' k j) : Shows (ls ++ ls') k P := by
  rintro ts rest ht hr
  obtain ⟨ts₁, ts₂, h₁, h₂, rfl⟩ := laid_append.1 ht
  rw [List.append_assoc]
  exact h h₁ (hk h₂ hr)

theorem symbol {s : String} : Shows (.symbol s :: ls) k fun ts => Ahead.symbol s ts :=
  head fun t ts ht _ => Ahead.symbol_iff.2 ⟨t, ts, rfl, ht⟩

theorem symbol_ne {s s' : String} (h : s ≠ s') :
    Shows (.symbol s :: ls) k fun ts => Ahead.symbol s' ts = false :=
  head fun t ts ht _ => by simp [Ahead.symbol, Ahead.lexeme, ht, h]

theorem word {w : String} : Shows (.word w :: ls) k fun ts => Ahead.word w ts :=
  head fun t ts ht _ => Ahead.word_iff.2 ⟨t, ts, rfl, ht⟩

theorem word_ne {w w' : String} (h : w ≠ w') :
    Shows (.word w :: ls) k fun ts => Ahead.word w' ts = false :=
  head fun t ts ht _ => by simp [Ahead.word, Ahead.lexeme, ht, h]

/-- A symbol is no word. -/
theorem symbol_not_word {s w : String} :
    Shows (.symbol s :: ls) k fun ts => Ahead.word w ts = false :=
  head fun t ts ht _ => by simp [Ahead.word, Ahead.lexeme, ht]

/-- A word is no symbol. -/
theorem word_not_symbol {w s : String} :
    Shows (.word w :: ls) k fun ts => Ahead.symbol s ts = false :=
  head fun t ts ht _ => by simp [Ahead.symbol, Ahead.lexeme, ht]

end Shows

namespace Reads

theorem pure {a : α} (h : R a) : Reads (Pure.pure a) [] k R := by
  rintro ts rest ht -
  obtain rfl := laid_nil.1 ht
  exact ⟨a, h, rfl⟩

theorem mono {S : α → Prop} (h : Reads p ls k R) (hk : ∀ ts, j ts → k ts)
    (hR : ∀ a, R a → S a) : Reads p ls j S := by
  rintro ts rest ht hr
  obtain ⟨a, ha, e⟩ := h ht (hk rest hr)
  exact ⟨a, hR a ha, e⟩

/-- One parser behind the other: what follows the first is what the second reads. -/
theorem bind (hp : Reads p ls j R) (hk : Shows ls' k j) (hf : ∀ a, R a → Reads (f a) ls' k Q) :
    Reads (p >>= f) (ls ++ ls') k Q := by
  rintro ts rest ht hr
  obtain ⟨ts₁, ts₂, h₁, h₂, rfl⟩ := laid_append.1 ht
  obtain ⟨a, ha, e⟩ := hp h₁ (hk h₂ hr)
  obtain ⟨b, hb, e'⟩ := hf a ha h₂ hr
  exact ⟨b, hb, bind_eq_some.2 ⟨a, _, by rw [List.append_assoc, e], e'⟩⟩

/-- Behind a parser that takes nothing. -/
theorem bind_of_nil (hp : Reads p [] j R) (hk : Shows ls k j) (hf : ∀ a, R a → Reads (f a) ls k Q) :
    Reads (p >>= f) ls k Q := hp.bind hk hf

/-- Behind a parser that takes one token. -/
theorem bind_cons (hp : Reads p [l] j R) (hk : Shows ls k j)
    (hf : ∀ a, R a → Reads (f a) ls k Q) : Reads (p >>= f) (l :: ls) k Q := hp.bind hk hf

theorem map {g : α → β} (hp : Reads p ls k R) (h : ∀ a, R a → Q (g a)) :
    Reads (g <$> p) ls k Q := by
  rintro ts rest ht hr
  obtain ⟨a, ha, e⟩ := hp ht hr
  exact ⟨g a, h a ha, map_eq_some.2 ⟨a, _, e, rfl⟩⟩

/-- A last step that takes nothing. -/
theorem bind_pure {g : α → β} (hp : Reads p ls k R) (h : ∀ a, R a → Q (g a)) :
    Reads (p >>= fun a => Pure.pure (g a)) ls k Q := by
  intro ts rest ht hr
  obtain ⟨a, ha, e⟩ := hp ht hr
  exact ⟨g a, h a ha, bind_eq_some.2 ⟨a, rest, e, rfl⟩⟩

/-- A second step that takes nothing. -/
theorem bind_nil (hp : Reads p ls k R) (hf : ∀ a, R a → Reads (f a) [] k Q) :
    Reads (p >>= f) ls k Q := by
  have := hp.bind (.nil fun _ h => h) hf
  rwa [List.append_nil] at this

/-! Single tokens. -/

theorem symbol {s : String} {q : Parse β} (h : Reads q ls k Q) :
    Reads (Parse.symbol s >>= fun _ => q) (.symbol s :: ls) k Q := by
  rintro ts rest hts hr
  obtain ⟨t, ts', ⟨hl, -⟩, ht, rfl⟩ := laid_cons.1 hts
  obtain ⟨b, hb, e⟩ := h ht hr
  exact ⟨b, hb, bind_eq_some.2 ⟨(), _, symbol_cons hl _, e⟩⟩

theorem word {w : String} {q : Parse β} (h : Reads q ls k Q) :
    Reads (Parse.word w >>= fun _ => q) (.word w :: ls) k Q := by
  rintro ts rest hts hr
  obtain ⟨t, ts', ⟨hl, -⟩, ht, rfl⟩ := laid_cons.1 hts
  obtain ⟨b, hb, e⟩ := h ht hr
  exact ⟨b, hb, bind_eq_some.2 ⟨(), _, word_cons hl _, e⟩⟩

theorem next {f : Lexeme → Parse β} (h : Reads (f l) ls k Q) :
    Reads (Parse.next >>= f) (l :: ls) k Q := by
  rintro ts rest hts hr
  obtain ⟨t, ts', ⟨rfl, -⟩, ht, rfl⟩ := laid_cons.1 hts
  obtain ⟨b, hb, e⟩ := h ht hr
  exact ⟨b, hb, bind_eq_some.2 ⟨t.lexeme, _, rfl, e⟩⟩

theorem wordThat {w : String} {P : String → Bool} {f : String → Parse β} (hw : P w)
    (h : Reads (f w) ls k Q) : Reads (Parse.wordThat P >>= f) (.word w :: ls) k Q := by
  rintro ts rest hts hr
  obtain ⟨⟨_, o, b, gl⟩, ts', ⟨rfl, -⟩, ht, rfl⟩ := laid_cons.1 hts
  obtain ⟨b, hb, e⟩ := h ht hr
  exact ⟨b, hb, bind_eq_some.2 ⟨w, _, by simp [Parse.wordThat, hw], e⟩⟩

theorem wordThat_self {w : String} {P : String → Bool} (hw : P w) :
    Reads (Parse.wordThat P) [.word w] k (· = w) := by
  rintro ts rest hts -
  obtain ⟨⟨_, o, b, gl⟩, ts', ⟨rfl, -⟩, ht, rfl⟩ := laid_cons.1 hts
  obtain rfl := laid_nil.1 ht
  exact ⟨w, rfl, by simp [Parse.wordThat, hw]⟩

theorem anyWord {w : String} {f : String → Parse β} (h : Reads (f w) ls k Q) :
    Reads (Parse.anyWord >>= f) (.word w :: ls) k Q :=
  wordThat rfl h

theorem string {v : String} {f : String → Parse β} (h : Reads (f v) ls k Q) :
    Reads (Parse.string >>= f) (.string v :: ls) k Q := by
  rintro ts rest hts hr
  obtain ⟨⟨_, o, b, gl⟩, ts', ⟨rfl, -⟩, ht, rfl⟩ := laid_cons.1 hts
  obtain ⟨b, hb, e⟩ := h ht hr
  exact ⟨b, hb, bind_eq_some.2 ⟨v, _, rfl, e⟩⟩

/-! Looking ahead. -/

theorem offset_of_ne_nil {f : Nat → Parse β} (hne : ls ≠ []) (h : ∀ o, Reads (f o) ls k Q) :
    Reads (Parse.offset >>= f) ls k Q := by
  intro ts rest hts hr
  obtain ⟨l, ls, rfl⟩ := List.exists_cons_of_ne_nil hne
  obtain ⟨t, ts', -, -, rfl⟩ := laid_cons.1 hts
  exact h t.offset hts hr

theorem offset {f : Nat → Parse β} (h : ∀ o, Reads (f o) (l :: ls) k Q) :
    Reads (Parse.offset >>= f) (l :: ls) k Q := offset_of_ne_nil nofun h

theorem require {b : Bool} {q : Parse β} (hb : b) (h : Reads q ls k Q) :
    Reads (Parse.require b >>= fun _ => q) ls k Q := by
  rintro ts rest ht hr
  obtain ⟨a, ha, e⟩ := h ht hr
  exact ⟨a, ha, by rw [require_bind, if_pos hb, e]⟩

theorem sees {p : Ahead} {f : Bool → Parse β} (b : Bool) (hp : Shows ls k fun ts => p ts = b)
    (h : Reads (f b) ls k Q) : Reads (Parse.sees p >>= f) ls k Q := by
  rintro ts rest ht hr
  obtain ⟨a, ha, e⟩ := h ht hr
  exact ⟨a, ha, by rw [sees_bind, hp ht hr, e]⟩

theorem takes {p : Ahead} {f : Bool → Parse β} (hp : Shows (l :: ls) k fun ts => p ts)
    (h : Reads (f true) ls k Q) : Reads (Parse.takes p >>= f) (l :: ls) k Q := by
  rintro ts rest hts hr
  have hpt := hp hts hr
  obtain ⟨t, ts', -, ht, rfl⟩ := laid_cons.1 hts
  obtain ⟨a, ha, e⟩ := h ht hr
  exact ⟨a, ha, by rw [takes_bind, if_pos hpt]; exact e⟩

theorem takes_not {p : Ahead} {f : Bool → Parse β} (hp : Shows ls k fun ts => p ts = false)
    (h : Reads (f false) ls k Q) : Reads (Parse.takes p >>= f) ls k Q := by
  rintro ts rest ht hr
  obtain ⟨a, ha, e⟩ := h ht hr
  exact ⟨a, ha, by rw [takes_bind, if_neg (by simp [hp ht hr]), e]⟩

theorem given {p : Ahead} {Q : Option α → Prop} {q : Parse α} (hp : Shows ls k fun ts => p ts)
    (h : Reads q ls k R) (hQ : ∀ a, R a → Q (some a)) : Reads (Parse.given p q) ls k Q := by
  rintro ts rest ht hr
  obtain ⟨a, ha, e⟩ := h ht hr
  refine ⟨some a, hQ a ha, ?_⟩
  rw [Parse.given, if_pos (hp ht hr)]
  exact map_eq_some.2 ⟨a, _, e, rfl⟩

theorem given_not {p : Ahead} {Q : Option α → Prop} {q : Parse α}
    (hp : ∀ ts, k ts → p ts = false) (hQ : Q none) : Reads (Parse.given p q) [] k Q := by
  rintro ts rest ht hr
  obtain rfl := laid_nil.1 ht
  exact ⟨none, hQ, given_of_false (hp rest hr)⟩

theorem attempt_not {f : Option α → Parse β} (hp : Shows ls k fun ts => p ts = none)
    (h : Reads (f none) ls k Q) : Reads (Parse.attempt p >>= f) ls k Q := by
  rintro ts rest ht hr
  obtain ⟨a, ha, e⟩ := h ht hr
  exact ⟨a, ha, bind_eq_some.2 ⟨none, _, by rw [Parse.attempt, hp ht hr], e⟩⟩

theorem attempt (hp : Reads p ls k R) {Q : Option α → Prop} (hQ : ∀ a, R a → Q (some a)) :
    Reads (Parse.attempt p) ls k Q := by
  rintro ts rest ht hr
  obtain ⟨a, ha, e⟩ := hp ht hr
  exact ⟨some a, hQ a ha, by rw [Parse.attempt, e]⟩

theorem orElse {q : Parse α} (h : Reads p ls k R) : Reads (Parse.orElse p q) ls k R := by
  rintro ts rest ht hr
  obtain ⟨a, ha, e⟩ := h ht hr
  exact ⟨a, ha, by rw [Parse.orElse, e]⟩

theorem orElse_not {q : Parse α} (hp : Shows ls k fun ts => p ts = none) (h : Reads q ls k R) :
    Reads (Parse.orElse p q) ls k R := by
  rintro ts rest ht hr
  obtain ⟨a, ha, e⟩ := h ht hr
  exact ⟨a, ha, by rw [Parse.orElse, hp ht hr, e]⟩

end Reads

/-! Lists. -/

section

variable {γ : Type} {item : Parse α} {read : γ → List Lexeme} {sep : List Token → Prop}
  {S : γ → α → Prop} {b close : String} {as : List γ}

/-- Each of a list is read in front of what parts two of them, and the last one in front of what
follows the whole. -/
def ReadsEach (item : Parse α) (read : γ → List Lexeme) (k sep : List Token → Prop)
    (S : γ → α → Prop) : List γ → Prop
  | [] => True
  | a :: as =>
    Reads item (read a) (if as.isEmpty then k else sep) (S a) ∧ ReadsEach item read k sep S as

/-- Items with a symbol in front of each. -/
theorem ReadsEach.during (h : ReadsEach item read k (fun ts => Ahead.symbol b ts) S as)
    (hk : ∀ ts, k ts → Ahead.symbol b ts = false) :
    Reads (Parse.during (Ahead.symbol b) (Parse.symbol b >>= fun _ => item))
      (as.flatMap fun a => .symbol b :: read a) k (List.Forall₂ S as) := by
  intro ts rest hts hr
  induction as generalizing ts with
  | nil =>
    obtain rfl := laid_nil.1 hts
    exact ⟨[], .nil, during_of_false (hk rest hr)⟩
  | cons a as ih =>
    obtain ⟨t, ts', ⟨hl, -⟩, hts', rfl⟩ := laid_cons.1 hts
    obtain ⟨ts₁, ts₂, h₁, h₂, rfl⟩ := laid_append.1 hts'
    obtain ⟨bs, hbs, hmore⟩ := ih h.2 h₂
    have hnext : (if as.isEmpty then k else fun ts => Ahead.symbol b ts) (ts₂ ++ rest) := by
      cases as with
      | nil =>
        obtain rfl := laid_nil.1 h₂
        exact hr
      | cons a' as =>
        obtain ⟨t', ts', ⟨hl', -⟩, -, rfl⟩ := laid_cons.1 h₂
        exact Ahead.symbol_iff.2 ⟨t', _, rfl, hl'⟩
    obtain ⟨c, hc, e⟩ := h.1 h₁ hnext
    refine ⟨c :: bs, .cons hc hbs, during_cons (Ahead.symbol_iff.2 ⟨t, _, rfl, hl⟩) ?_ ?_ hmore⟩
    · refine bind_eq_some.2 ⟨(), _, symbol_cons hl _, ?_⟩
      show item (ts₁ ++ ts₂ ++ rest) = _
      rw [List.append_assoc, e]
    · simp only [List.cons_append, List.length_cons, List.length_append]
      omega

theorem intercalate_cons_eq_flatMap (l : Lexeme) (a : γ) :
    [l].intercalate ((a :: as).map read) = read a ++ as.flatMap fun a => l :: read a := by
  induction as generalizing a with
  | nil => simp
  | cons a' as ih =>
    rw [List.map_cons, List.map_cons, List.intercalate_cons_cons, ← List.map_cons, ih]
    simp

theorem ReadsEach.separated (hne : as ≠ [])
    (h : ReadsEach item read k (fun ts => Ahead.symbol b ts) S as)
    (hk : ∀ ts, k ts → Ahead.symbol b ts = false) :
    Reads (Parse.separated b item) ([.symbol b].intercalate (as.map read)) k
      (List.Forall₂ S as) := by
  obtain _ | ⟨a, as⟩ := as
  · contradiction
  rw [intercalate_cons_eq_flatMap]
  refine h.1.bind ?_ fun c hc => (h.2.during hk).bind_pure fun cs hcs => .cons hc hcs
  cases as with
  | nil => exact .nil fun _ h => h
  | cons a' as => exact .symbol

/-- Each of a list is read with a comma behind it, and the last one without. -/
def ReadsListed (step : Parse α) (read : γ → List Lexeme) (k : List Token → Prop)
    (S : γ → α → Prop) : List γ → Prop
  | [] => True
  | [a] => Reads step (read a) k (S a)
  | a :: as =>
    Reads step (read a ++ [.symbol ","]) (fun _ => True) (S a) ∧ ReadsListed step read k S as

/-- Steps with commas between them, up to a closing symbol. -/
theorem ReadsListed.during {step : Parse α}
    (h : ReadsListed step read (fun ts => Ahead.symbol close ts) S as)
    (hne : ∀ a ∈ as, ∃ l ls, read a = l :: ls ∧ l ≠ .symbol close) :
    Reads (Parse.during (Ahead.symbol close).not step) ([.symbol ","].intercalate (as.map read))
      (fun ts => Ahead.symbol close ts) (List.Forall₂ S as) := by
  have hopens : ∀ a ∈ as, ∀ ls', Shows (read a ++ ls') (fun _ => True)
      fun ts => (Ahead.symbol close).not ts ∧ ts ≠ [] := by
    rintro a ha ls' ts rest hts -
    obtain ⟨l, ls, hls, hl⟩ := hne a ha
    rw [hls] at hts
    obtain ⟨t, ts', ⟨rfl, -⟩, -, rfl⟩ := laid_cons.1 hts
    exact ⟨by simp [Ahead.not, Ahead.symbol, Ahead.lexeme, hl], by simp⟩
  intro ts rest hts hr
  induction as generalizing ts with
  | nil =>
    obtain rfl := laid_nil.1 hts
    exact ⟨[], .nil, during_of_false (by simp [Ahead.not, hr])⟩
  | cons a as ih =>
    cases as with
    | nil =>
      rw [List.map_singleton, List.intercalate_singleton] at hts
      obtain ⟨c, hc, e⟩ := h hts hr
      have ho := hopens a (by simp) [] (by rwa [List.append_nil]) (r := []) trivial
      rw [List.append_nil] at ho
      obtain ⟨t, ts', rfl⟩ := List.exists_cons_of_ne_nil ho.2
      refine ⟨[c], .cons hc .nil, during_cons ho.1 e ?_ (during_of_false (by simp [Ahead.not, hr]))⟩
      simp only [List.cons_append, List.length_cons, List.length_append]
      omega
    | cons a' as =>
      rw [List.map_cons, List.map_cons, List.intercalate_cons_cons, ← List.map_cons] at hts
      obtain ⟨ts₁, ts₂, h₁, h₂, rfl⟩ := laid_append.1 hts
      obtain ⟨c, hc, e⟩ := h.1 h₁ (r := ts₂ ++ rest) trivial
      obtain ⟨bs, hbs, hmore⟩ := ih h.2 (fun a ha => hne a (by simp [ha]))
        (fun a ha => hopens a (by simp [ha])) h₂
      have ho := hopens a (by simp) _ h₁ (r := ts₂ ++ rest) trivial
      have hpos := h₁.length_eq
      rw [List.length_append, List.length_singleton] at hpos
      refine ⟨c :: bs, .cons hc hbs, ?_⟩
      rw [List.append_assoc]
      refine during_cons ho.1 e ?_ hmore
      simp only [List.length_append]
      omega

/-- Items with commas between them, up to a closing symbol that is taken as well. -/
theorem ReadsEach.commaList
    (h : ReadsEach item read (fun ts => Ahead.symbol close ts) (fun ts => Ahead.symbol "," ts) S as)
    (hclose : close ≠ ",") (hne : ∀ a ∈ as, ∃ l ls, read a = l :: ls ∧ l ≠ .symbol close) :
    Reads (Parse.commaList close item)
      ([.symbol ","].intercalate (as.map read) ++ [.symbol close]) k (List.Forall₂ S as) := by
  refine (ReadsListed.during ?_ hne).bind .symbol
    fun bs hbs => .symbol (.pure hbs)
  clear hne
  induction as with
  | nil => trivial
  | cons a as ih =>
    cases as with
    | nil =>
      have ha : Reads item (read a) (fun ts => Ahead.symbol close ts) (S a) := h.1
      have := ha.bind (f := fun c => Parse.sees (Ahead.symbol close) >>= fun last =>
        if last then Pure.pure c else Parse.symbol "," >>= fun _ => Pure.pure c)
        (.nil fun _ h => h) fun c hc => .sees true (.nil fun _ h => h) (.pure hc)
      rwa [List.append_nil] at this
    | cons a' as =>
      have ha : Reads item (read a) (fun ts => Ahead.symbol "," ts) (S a) := h.1
      exact ⟨ha.bind .symbol fun c hc => .sees false (.symbol_ne hclose.symm) (.symbol (.pure hc)),
        ih h.2⟩

end

/-! Lists that were read. -/

/-- Items are read one after the other, each but the last in front of what parts two of them. -/
inductive Parted (item : Parse α) (sep : Ahead) : List α → List Token → Prop
  | last {ts a rest} : item ts = some (a, rest) → Parted item sep [a] rest
  | more {ts a mid as rest} :
      item ts = some (a, mid) → sep mid → Parted item sep as rest → Parted item sep (a :: as) rest

section

variable {item : Parse α} {sep : Ahead} {as : List α} {ts rest : List Token} {b close : String}

theorem Parted.ne_nil (h : Parted item sep as rest) : as ≠ [] := by
  cases h <;> simp

theorem Parted.forall (h : Parted item sep as rest) :
    ∀ a ∈ as, ∃ ts mid, item ts = some (a, mid) := by
  induction h with
  | last hitem => simpa using ⟨_, _, hitem⟩
  | more hitem _ _ ih => exact List.forall_mem_cons.2 ⟨⟨_, _, hitem⟩, ih⟩

theorem Repeats.forall {p : Ahead} (h : Repeats p item ts as rest) :
    ∀ a ∈ as, ∃ ts mid, item ts = some (a, mid) := by
  induction h with
  | done => simp
  | more _ hitem _ ih => exact List.forall_mem_cons.2 ⟨⟨_, _, hitem⟩, ih⟩

theorem separated_parted (h : Parse.separated b item ts = some (as, rest)) :
    Parted item (Ahead.symbol b) as rest ∧ Ahead.symbol b rest = false := by
  obtain ⟨first, mid, hfirst, hrest⟩ := bind_eq_some.1 h
  obtain ⟨more, mid', hmore, e⟩ := bind_eq_some.1 hrest
  cases e
  have hrep := repeats_of_during hmore
  refine ⟨?_, hrep.stops⟩
  clear h hrest hmore
  induction hrep generalizing first ts with
  | done => exact .last hfirst
  | more hp hitem _ ih =>
    obtain ⟨_, mid'', hs, hitem⟩ := bind_eq_some.1 hitem
    exact .more hfirst hp (ih _ hitem)

theorem commaList_parted (h : Parse.commaList close item ts = some (as, rest)) :
    as = [] ∨ ∃ mid, Parted item (Ahead.symbol ",") as mid ∧
      (Ahead.symbol close mid ∨ Ahead.symbol "," mid) := by
  obtain ⟨items, mid, hitems, hrest⟩ := bind_eq_some.1 h
  obtain ⟨_, mid', -, e⟩ := bind_eq_some.1 hrest
  cases e
  have hrep := repeats_of_during hitems
  clear h hitems hrest
  induction hrep with
  | done => exact .inl rfl
  | @more _ _ _ a as' _ hitem hrest ih =>
    obtain ⟨a', mid'', hitem, h⟩ := bind_eq_some.1 hitem
    rcases sees_ite_eq_some.1 h with ⟨hc, h⟩ | ⟨-, h⟩
    · cases h
      refine .inr ⟨_, ?_, .inl hc⟩
      cases hrest with
      | done => exact .last hitem
      | more hp _ _ => simp [Ahead.not, hc] at hp
    · obtain ⟨_, mid''', hs, h⟩ := bind_eq_some.1 h
      cases h
      have hcomma : Ahead.symbol "," mid'' := by
        unfold Parse.symbol at hs
        split at hs
        · assumption
        · cases hs
      obtain rfl | ⟨m, hm, hend⟩ := ih
      · exact .inr ⟨_, .last hitem, .inr hcomma⟩
      · exact .inr ⟨m, .more hitem hcomma hm, hend⟩

/-- What is read of a list that was read, item by item. -/
theorem Parted.readsEach {p : Parse β} {read : α → List Lexeme} {j : List Token → Prop}
    {S : α → β → Prop} (h : Parted item sep as rest)
    (hm : ∀ ts a mid, a ∈ as → item ts = some (a, mid) → sep mid → Reads p (read a) j (S a))
    (hl : ∀ ts a, as.getLast? = some a → item ts = some (a, rest) → Reads p (read a) k (S a)) :
    ReadsEach p read k j S as := by
  induction h with
  | last hitem => exact ⟨hl _ _ (by simp) hitem, trivial⟩
  | more hitem hsep hrest ih =>
    refine ⟨?_, ih (fun ts a mid ha => hm ts a mid (by simp [ha])) fun ts a ha =>
      hl ts a (by rw [List.getLast?_cons_of_ne_nil hrest.ne_nil, ha])⟩
    rw [if_neg (by simpa using hrest.ne_nil)]
    exact hm _ _ _ (by simp) hitem hsep

end

end Parse
end ApiSurface.Source
