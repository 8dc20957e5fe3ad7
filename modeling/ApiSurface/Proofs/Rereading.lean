import ApiSurface.Proofs.LaidOut
import ApiSurface.Proofs.LegibleTypes
import ApiSurface.Proofs.TypeErasure
import ApiSurface.Proofs.OpeningRules

/-! What it means that a rule reads a type back. The text of a type stands between other tokens than
its source did. Where one of these would go on with the type, the source went on with the same. -/
namespace ApiSurface.Source
open Parse

/-- A token that may follow a type. -/
def Lexeme.follows : Lexeme → Bool
  | .symbol s => [")", "]", "\x7d", ">", ",", ":", ";", "?", "|", "&", "["].contains s
  | .word w => w = "as" || w = "extends"
  | .template _ opens _ _ => !opens
  | _ => false

/-- What follows a type with the given lexemes in the text, compared to the rest of the source. A
bound behind the type is one only of a condition, even to rules for types of some size. -/
structure MayFollow (c : Bool) (m : Nat) (ls : List Lexeme) (rest ts : List Token) : Prop where
  head : ∃ t ts', ts = t :: ts' ∧ t.lexeme.follows
  bar : Ahead.symbol "|" ts → Ahead.symbol "|" rest
  amp : Ahead.symbol "&" ts → Ahead.symbol "&" rest
  question : Ahead.symbol "?" ts → Ahead.symbol "?" rest
  bracket : Ahead.symbol "[" ts → (Ahead.symbol "[").and Ahead.sameLine rest
  condition : Ahead.word "extends" ts → (Ahead.word "extends").and Ahead.sameLine rest
  bound : Ahead.word "extends" ts → ∀ n, m ≤ n → (grammar n).inferredBound true ts = none
  closed : c = false → Ahead.word "extends" ts → endsInfer ls = false

namespace MayFollow

variable {c c' : Bool} {n : Nat} {ls ls' : List Lexeme} {rest ts : List Token} {s w : String}

theorem tail (ls : List Lexeme) (h : MayFollow c n (ls ++ ls') rest ts) :
    MayFollow c n ls' rest ts :=
  { h with closed := fun hc hw => endsInfer_append (h.closed hc hw) }

theorem symbol_eq_false (h : MayFollow c n ls rest ts)
    (hs : s ∉ [")", "]", "\x7d", ">", ",", ":", ";", "?", "|", "&", "["]) :
    Ahead.symbol s ts = false := by
  obtain ⟨t, ts, rfl, ht⟩ := h.head
  by_contra hc
  obtain ⟨_, _, e, hl⟩ := Ahead.symbol_iff.1 (by simpa using hc)
  cases e
  rw [hl] at ht
  exact hs (by simpa [Lexeme.follows] using ht)

theorem word_eq_false (h : MayFollow c n ls rest ts) (hw : w ∉ ["as", "extends"]) :
    Ahead.word w ts = false := by
  obtain ⟨t, ts, rfl, ht⟩ := h.head
  by_contra hc
  obtain ⟨_, _, e, hl⟩ := Ahead.word_iff.1 (by simpa using hc)
  cases e
  rw [hl] at ht
  exact hw (by simpa [Lexeme.follows] using ht)

end MayFollow

/-- A token that ends a type whatever the type is. -/
def Lexeme.closes : Lexeme → Bool
  | .symbol s => [")", "]", "\x7d", ">", ",", ":", ";"].contains s
  | .word w => w = "as"
  | .template _ opens _ _ => !opens
  | _ => false

/-- Only what ends a type comes next. -/
def Closes (k : List Token → Prop) : Prop := ∀ ts, k ts → ∃ t us, ts = t :: us ∧ t.lexeme.closes

theorem closes_symbol {s : String} (hs : s ∈ [")", "]", "\x7d", ">", ",", ":", ";"]) :
    Closes fun ts => Ahead.symbol s ts := by
  intro ts hts
  obtain ⟨t, us, rfl, ht⟩ := Ahead.symbol_iff.1 hts
  exact ⟨t, us, rfl, by simpa [ht, Lexeme.closes] using hs⟩

section

variable {t : Token} {ts : List Token} {s w : String}

theorem symbol_eq_false_of_closes (h : t.lexeme.closes)
    (hs : s ∉ [")", "]", "\x7d", ">", ",", ":", ";"]) : Ahead.symbol s (t :: ts) = false := by
  by_contra hc
  obtain ⟨_, _, e, hl⟩ := Ahead.symbol_iff.1 (by simpa using hc)
  cases e
  rw [hl] at h
  exact hs (by simpa [Lexeme.closes] using h)

theorem word_eq_false_of_closes (h : t.lexeme.closes) (hw : w ≠ "as") :
    Ahead.word w (t :: ts) = false := by
  by_contra hc
  obtain ⟨_, _, e, hl⟩ := Ahead.word_iff.1 (by simpa using hc)
  cases e
  rw [hl] at h
  exact hw (by simpa [Lexeme.closes] using h)

theorem follows_of_closes {c : Bool} {n : Nat} {ls : List Lexeme} {rest : List Token}
    (h : t.lexeme.closes) : MayFollow c n ls rest (t :: ts) := by
  have hsymbol : ∀ s, s ∈ ["|", "&", "?", "["] → Ahead.symbol s (t :: ts) = false := by
    intro s hs
    refine symbol_eq_false_of_closes h ?_
    simp only [List.mem_cons, List.not_mem_nil, or_false] at hs
    obtain rfl | rfl | rfl | rfl := hs <;> simp
  have hword : Ahead.word "extends" (t :: ts) = false := word_eq_false_of_closes h (by simp)
  refine ⟨⟨t, ts, rfl, ?_⟩, ?_, ?_, ?_, ?_, ?_, ?_, ?_⟩
  · cases hl : t.lexeme with
    | symbol s =>
      simp only [hl, Lexeme.closes, Lexeme.follows, List.contains_iff_mem, List.mem_cons] at *
      tauto
    | word w => simp_all [Lexeme.closes, Lexeme.follows]
    | template chunk opens closes sound =>
      rw [hl] at h
      exact h
    | _ =>
      rw [hl] at h
      cases h
  all_goals simp [hsymbol, hword]

end

section

variable {c : Bool} {n : Nat} {ls : List Lexeme} {rest ts : List Token} {t : Token} {s : String}

theorem follows_of_symbol (ht : t.lexeme = .symbol s) (hs : s ∈ ["|", "&", "?"])
    (h : Ahead.symbol s rest) : MayFollow c n ls rest (t :: ts) := by
  have ha : Ahead.symbol s (t :: ts) := Ahead.symbol_iff.2 ⟨t, ts, rfl, ht⟩
  have hword : Ahead.word "extends" (t :: ts) = false := Ahead.word_of_symbol ha
  have hsym : ∀ s', Ahead.symbol s' (t :: ts) → s' = s := by
    intro s' hs'
    by_contra hne
    rw [Ahead.symbol_of_symbol ha (Ne.symm hne)] at hs'
    cases hs'
  refine ⟨⟨t, ts, rfl, ?_⟩, ?_, ?_, ?_, ?_, ?_, ?_, ?_⟩
  · simp only [List.mem_cons, List.not_mem_nil, or_false] at hs
    rw [ht]
    obtain rfl | rfl | rfl := hs <;> rfl
  · rintro hs'
    rwa [hsym _ hs']
  · rintro hs'
    rwa [hsym _ hs']
  · rintro hs'
    rwa [hsym _ hs']
  · rintro hs'
    obtain rfl := hsym _ hs'
    simp at hs
  all_goals simp [hword]

theorem follows_of_bracket (ht : t.lexeme = .symbol "[")
    (h : (Ahead.symbol "[").and Ahead.sameLine rest) : MayFollow c n ls rest (t :: ts) := by
  have ha : Ahead.symbol "[" (t :: ts) := Ahead.symbol_iff.2 ⟨t, ts, rfl, ht⟩
  have hword : Ahead.word "extends" (t :: ts) = false := Ahead.word_of_symbol ha
  have hsym : ∀ s, s ≠ "[" → Ahead.symbol s (t :: ts) = false :=
    fun s hs => Ahead.symbol_of_symbol ha hs.symm
  refine ⟨⟨t, ts, rfl, by rw [ht]; rfl⟩, ?_, ?_, ?_, fun _ => h, ?_, ?_, ?_⟩
  · simp [hsym]
  · simp [hsym]
  · simp [hsym]
  all_goals simp [hword]

theorem follows_of_extends (ht : t.lexeme = .word "extends")
    (h : (Ahead.word "extends").and Ahead.sameLine rest)
    (hb : ∀ m, n ≤ m → (grammar m).inferredBound true (t :: ts) = none)
    (hc : c = false → endsInfer ls = false) : MayFollow c n ls rest (t :: ts) := by
  have ha : Ahead.word "extends" (t :: ts) := Ahead.word_iff.2 ⟨t, ts, rfl, ht⟩
  have hsym : ∀ s, Ahead.symbol s (t :: ts) = false := fun s => Ahead.symbol_of_word ha
  refine ⟨⟨t, ts, rfl, by rw [ht]; rfl⟩, ?_, ?_, ?_, ?_, fun _ => h, fun _ => hb,
    fun hc' _ => hc hc'⟩
  all_goals simp [hsym]

end

/-! Types that are read back. -/

/-- Rules of an unbounded depth read a type back from its lexemes, up to what is erased. The rest of
the source is what the type was read in front of. -/
def ReadsBack (c : Bool) (rule : Nat → Parse TypeTerm) (t : TypeTerm) (rest : List Token) : Prop :=
  ∀ ⦃m n⦄, (lexemes t.pieces).length + m ≤ n →
    Reads (rule n) (lexemes t.pieces) (MayFollow c m (lexemes t.pieces) rest) (·.erased = t.erased)

/-- A type that is read back. -/
structure Recalled (c : Bool) (rule : Nat → Parse TypeTerm) (t : TypeTerm) (rest : List Token) :
    Prop where
  back : ReadsBack c rule t rest
  opens : opensType (lexemes t.pieces)
  grouped : Grouped (lexemes t.pieces)
  untested : t.tests = false

/-- All legible types of a rule are read back by rules of an unbounded depth. -/
def Recalls (c : Bool) (p : Parse TypeTerm) (rule : Nat → Parse TypeTerm) : Prop :=
  ∀ ⦃ts t rest⦄, p ts = some (t, rest) → t.legible → Recalled c rule t rest

/-- An operand of a union that is read back. Where its text opens with a word, the source did. -/
structure RecalledOperand (rule : Nat → Parse TypeTerm) (ts : List Token) (t : TypeTerm)
    (rest : List Token) : Prop where
  back : ∀ c, ReadsBack c rule t rest
  operand : OpensOperand (lexemes t.pieces)
  untested : t.tests = false
  leads : ∀ w ls, lexemes t.pieces = .word w :: ls → Ahead.word w ts

/-- A chain of names starts at one that may be declared. -/
def Expression.Declared (e : Expression) : Prop :=
  ∀ w ws, e.path? = some (w :: ws) → isReference w ∧ w ≠ "static"

/-- The parts of a grammar that read types and what types are made of. -/
structure Grammar.Recalls (g : Grammar) : Prop where
  type : ∀ c, Source.Recalls c (g.type c) fun n => (grammar (n + 1)).type c
  operand : ∀ c, Source.Recalls c (g.typeOperand c) fun n => (grammar (n + 1)).typeOperand c
  binding : ∀ d, Yields (g.binding d) fun b => ∀ n, b = .name n → isBindable n
  value : ∀ i, Yields (g.assignment i) fun o => o.expression.Declared

section

variable {c : Bool} {t : TypeTerm} {rest : List Token} {m n : Nat} {k : List Token → Prop}

/-- A type inside of another, in front of what the grammar may go on with. -/
theorem Recalled.type (h : Recalled c (fun n => (grammar (n + 1)).type c) t rest)
    (hn : (lexemes t.pieces).length + m < n) : Reads ((grammar n).type c) (lexemes t.pieces)
      (MayFollow c m (lexemes t.pieces) rest) (·.erased = t.erased) := by
  obtain _ | n := n
  · omega
  · exact h.back (by omega)

/-- A type inside of another, in front of what ends it. -/
theorem Recalled.type_closed (h : Recalled c (fun n => (grammar (n + 1)).type c) t rest)
    (hn : (lexemes t.pieces).length < n) (hk : Closes k) :
    Reads ((grammar n).type c) (lexemes t.pieces) k (·.erased = t.erased) := by
  refine (h.type (m := 0) hn).mono (fun ts hts => ?_) fun _ h => h
  obtain ⟨u, us, rfl, hu⟩ := hk ts hts
  exact follows_of_closes hu

end

end ApiSurface.Source
