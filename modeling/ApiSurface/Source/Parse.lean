import ApiSurface.Source.Token

/-! Parsers over tokens: a parser takes some of the tokens and hands on the rest, or it refuses
them. A look ahead is a predicate on the tokens to come. -/
namespace ApiSurface.Source

abbrev Parse := StateT (List Token) Option

/-- A predicate on the tokens to come. -/
abbrev Ahead := List Token → Bool

namespace Ahead

/-- The next token has a lexeme of some kind. -/
def lexeme (p : Lexeme → Bool) : Ahead
  | t :: _ => p t.lexeme
  | [] => false

def symbol (s : String) : Ahead := lexeme (· == .symbol s)

def symbolIn (ss : List String) : Ahead := lexeme fun
  | .symbol s => ss.contains s
  | _ => false

/-- The given word comes next. -/
def word (w : String) : Ahead := lexeme (· == .word w)

def wordThat (p : String → Bool) : Ahead := lexeme fun
  | .word w => p w
  | _ => false

def wordIn (ws : List String) : Ahead := wordThat ws.contains

def anyWord : Ahead := wordThat fun _ => true

/-- A word that may stand for something declared comes next. -/
def reference : Ahead := wordThat isReference

def string : Ahead := lexeme fun
  | .string _ => true
  | _ => false

def number : Ahead := lexeme fun
  | .number _ => true
  | _ => false

def bigint : Ahead := lexeme fun
  | .bigint _ => true
  | _ => false

def privateName : Ahead := lexeme fun
  | .privateName _ => true
  | _ => false

def template : Ahead := lexeme fun
  | .template _ opens _ _ => opens
  | _ => false

/-- The next token stands on the line of the one before it. -/
def sameLine : Ahead
  | t :: _ => !t.startsLine
  | [] => false

/-- The next token touches the one before it. -/
def glued : Ahead
  | t :: _ => t.glued
  | [] => false

def and (p q : Ahead) : Ahead := fun ts => p ts && q ts
def or (p q : Ahead) : Ahead := fun ts => p ts || q ts
def not (p : Ahead) : Ahead := fun ts => !p ts

/-- One predicate holds here, and another behind the next token. -/
def before (p q : Ahead) : Ahead := fun ts => p ts && q ts.tail

/-- Both words come next, on one line. -/
def words (w v : String) : Ahead := (word w).before ((word v).and sameLine)

/-- A statement may end here: before a semicolon, a closing brace, a new line or nothing. -/
def statementEnd : Ahead
  | [] => true
  | t :: _ => t.startsLine || t.lexeme == .symbol ";" || t.lexeme == .symbol "\x7d"

end Ahead

namespace Parse

variable {α : Type}

def refuse : Parse α := fun _ => none

def require (b : Bool) : Parse Unit := if b then pure () else refuse

/-- Does a predicate hold of the tokens to come? -/
def sees (p : Ahead) : Parse Bool := fun ts => some (p ts, ts)

/-- Where the next token starts. -/
def offset : Parse Nat
  | [] => none
  | t :: ts => some (t.offset, t :: ts)

def next : Parse Lexeme
  | [] => none
  | t :: ts => some (t.lexeme, ts)

/-- The given symbol. -/
def symbol (s : String) : Parse Unit := fun ts =>
  if Ahead.symbol s ts then some ((), ts.tail) else none

/-- The given word. -/
def word (w : String) : Parse Unit := fun ts =>
  if Ahead.word w ts then some ((), ts.tail) else none

/-- A word of some kind. -/
def wordThat (p : String → Bool) : Parse String
  | ⟨.word w, _, _, _⟩ :: ts => if p w then some (w, ts) else none
  | _ => none

def anyWord : Parse String := wordThat fun _ => true

/-- A word that may be declared. -/
def boundName : Parse String := wordThat isBindable

def string : Parse String
  | ⟨.string s, _, _, _⟩ :: ts => some (s, ts)
  | _ => none

/-- Takes the next token if a predicate holds, and tells whether it did. -/
def takes (p : Ahead) : Parse Bool := fun ts =>
  if p ts then some (true, ts.tail) else some (false, ts)

def takesSymbol (s : String) : Parse Bool := takes (Ahead.symbol s)

def takesWord (w : String) : Parse Bool := takes (Ahead.word w)

/-- What a parser reads if a predicate holds, and nothing otherwise. -/
def given (p : Ahead) (q : Parse α) : Parse (Option α) := fun ts =>
  if p ts then (some <$> q) ts else some (none, ts)

/-- What a parser reads, or nothing if it refuses. -/
def attempt (p : Parse α) : Parse (Option α) := fun ts =>
  match p ts with
  | some (a, rest) => some (some a, rest)
  | none => some (none, ts)

/-- The first of two parsers that does not refuse. -/
def orElse (p q : Parse α) : Parse α := fun ts =>
  match p ts with
  | some r => some r
  | none => q ts

/-- The end of a statement: a semicolon, or a place where one may be left out. -/
def endStatement : Parse Unit := fun ts =>
  if Ahead.symbol ";" ts then some ((), ts.tail)
  else if Ahead.statementEnd ts then some ((), ts)
  else none

/-- What a parser reads where fewer than so many tokens come. -/
def within (n : Nat) (p : Parse α) : Parse α := fun ts => if ts.length < n then p ts else none

/-- A step that takes a token at least, if it reads anything. -/
def advancing (step : Parse (Option α)) : Parse (Option α) := fun ts =>
  match step ts with
  | some (some a, rest) => if rest.length < ts.length then some (some a, rest) else none
  | r => r

/-- All that a parser reads until it reads nothing, in at most so many steps. -/
def iterateFor (step : Parse (Option α)) : Nat → Parse (List α)
  | 0 => refuse
  | n + 1 => do
    match ← step with
    | some a => (a :: ·) <$> iterateFor step n
    | none => pure []

/-- All that a parser reads until it reads nothing. Every reading takes a token at least. -/
def iterate (step : Parse (Option α)) : Parse (List α) := fun ts =>
  iterateFor (advancing step) (ts.length + 1) ts

/-- What a parser reads again and again while a predicate holds. -/
def during (p : Ahead) (item : Parse α) : Parse (List α) := iterate (given p item)

/-- A value that grows until a step leaves it, in at most so many steps. -/
def growFor (step : α → Parse (Option α)) : Nat → α → Parse α
  | 0, _ => refuse
  | n + 1, a => do
    match ← step a with
    | some b => growFor step n b
    | none => pure a

/-- A value that grows until a step leaves it. Every step but the last takes a token at least. -/
def grow (step : α → Parse (Option α)) (a : α) : Parse α := fun ts =>
  growFor (fun a => advancing (step a)) (ts.length + 1) a ts

/-- Items with a comma behind each, up to a closing symbol; the last comma may be left out. -/
def commaList (close : String) (item : Parse α) : Parse (List α) := do
  let items ← during (Ahead.symbol close).not do
    let a ← item
    if ← sees (Ahead.symbol close) then pure a
    else do
      symbol ","
      pure a
  symbol close
  pure items

/-- Items with a symbol between each two; there is one at least. -/
def separated (between : String) (item : Parse α) : Parse (List α) := do
  let first ← item
  let more ← during (Ahead.symbol between) do
    symbol between
    item
  pure (first :: more)

/-- Would a parser read on from here, and what would it say? -/
def foresees (p : Parse Bool) : Parse Bool := fun ts =>
  match p ts with
  | some (b, _) => some (b, ts)
  | none => some (false, ts)

@[simp] theorem refuse_apply (ts : List Token) : (refuse : Parse α) ts = none := rfl
@[simp] theorem require_true : require true = pure () := rfl
@[simp] theorem require_false : require false = refuse := rfl

@[simp] theorem sees_apply (p : Ahead) (ts : List Token) : sees p ts = some (p ts, ts) := rfl

@[simp] theorem next_cons (t : Token) (ts : List Token) :
    next (t :: ts) = some (t.lexeme, ts) := rfl

@[simp] theorem takes_of_true {p : Ahead} {ts : List Token} (h : p ts) :
    takes p ts = some (true, ts.tail) := by simp [takes, h]

@[simp] theorem takes_of_false {p : Ahead} {ts : List Token} (h : p ts = false) :
    takes p ts = some (false, ts) := by simp [takes, h]

@[simp] theorem given_of_false {p : Ahead} {q : Parse α} {ts : List Token} (h : p ts = false) :
    given p q ts = some (none, ts) := by simp [given, h]

theorem symbol_cons {t : Token} {s : String} (h : t.lexeme = .symbol s) (ts : List Token) :
    symbol s (t :: ts) = some ((), ts) := by simp [symbol, Ahead.symbol, Ahead.lexeme, h]

theorem word_cons {t : Token} {w : String} (h : t.lexeme = .word w) (ts : List Token) :
    word w (t :: ts) = some ((), ts) := by simp [word, Ahead.word, Ahead.lexeme, h]

theorem of_advancing {step : Parse (Option α)} {ts : List Token} {r : Option α × List Token}
    (h : advancing step ts = some r) : step ts = some r := by
  unfold advancing at h
  split at h
  · next hstep =>
    split at h
    · exact hstep.trans h
    · cases h
  · exact h

theorem advancing_of_none {step : Parse (Option α)} {ts rest : List Token}
    (h : step ts = some (none, rest)) : advancing step ts = some (none, rest) := by
  simp [advancing, h]

/-- A list ends where a step reads nothing. -/
theorem iterateFor_done {step : Parse (Option α)} {ts rest : List Token}
    (h : step ts = some (none, rest)) (n : Nat) :
    iterateFor step (n + 1) ts = some ([], rest) := by
  show (step ts).bind _ = _
  rw [h]
  rfl

end Parse
end ApiSurface.Source
