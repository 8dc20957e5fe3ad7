import ApiSurface.Proofs.Spelling
import ApiSurface.Proofs.Reading
import ApiSurface.Source.Module

/-! Syntax trees in which names and numbers are spelled as such, as far as declarations show them.
They come of tokens that are: a parser keeps the spelling if what it reads and what it leaves are
spelled when what it is given is. -/
namespace ApiSurface.Source

theorem isName_this : IsName "this" :=
  ⟨'t', "his".toList, rfl, by decide, List.all_eq_true.1 (by decide)⟩

/-! Trees. -/

inductive Expression.Spelled : Expression → Prop
  | name {n o} : IsName n → Spelled (.name n o)
  | string {v o} : Spelled (.string v o)
  | number {s o} : IsNumber .number s → Spelled (.number s o)
  | boolean {o} : Spelled (.boolean o)
  | bigint {o} : Spelled (.bigint o)
  | member {e p} : Spelled e → (∀ w ∈ p, IsName w) → Spelled (.member e p)
  | unary {e o} : Spelled e → Spelled (.unary e o)
  | instance {e} : Spelled e → Spelled (.instance e)
  | other {o} : Spelled (.other o)

theorem Expression.Spelled.path {e : Expression} {p : List String} (he : e.Spelled)
    (hp : e.path? = some p) : p ≠ [] ∧ ∀ n ∈ p, IsName n := by
  induction he generalizing p with
  | name hn =>
    cases hp
    exact ⟨nofun, by simpa using hn⟩
  | @member e p? he hname ih =>
    cases p? with
    | none => cases hp
    | some w =>
      obtain ⟨q, hq, rfl⟩ := Option.map_eq_some_iff.1 hp
      refine ⟨by simp, fun n hn => ?_⟩
      obtain hn | hn := List.mem_append.1 hn
      · exact (ih hq).2 n hn
      · rw [List.mem_singleton.1 hn]
        exact hname w rfl
  | _ => cases hp

def Key.Spelled (k : Key) : Prop := k.value.Spelled

/-- A number of some sort, with or without a sign. -/
def IsSigned (literal : String → Lexeme) (s : String) : Prop :=
  IsNumber literal s ∨ ∃ s', s = "-" ++ s' ∧ IsNumber literal s'

theorem IsSigned.part {literal : String → Lexeme} {s : String} (h : IsSigned literal s) :
    ∀ c ∈ s.toList, isNumeralPart c := by
  obtain h | ⟨s', rfl, h⟩ := h
  · exact h.numeral.2
  · have hsign : ("-" ++ s').toList = '-' :: s'.toList := by simp
    rw [hsign]
    exact List.forall_mem_cons.2 ⟨by decide, h.numeral.2⟩

mutual

/-- What the text of a type shows is spelled as a text may spell it. Type parameters are not shown.
-/
inductive TypeTerm.Spelled : TypeTerm → Prop
  | keyword {w} : IsName w → TypeTerm.Spelled (.keyword w)
  | this : TypeTerm.Spelled .this
  | string {v} : TypeTerm.Spelled (.string v)
  | number {s} : IsSigned .number s → TypeTerm.Spelled (.number s)
  | bigint {s} : IsSigned .bigint s → TypeTerm.Spelled (.bigint s)
  | boolean {b} : TypeTerm.Spelled (.boolean b)
  | template {first holes} : IsChunk first.toList true → (∀ h ∈ holes, Hole.Spelled h) →
      TypeTerm.Spelled (.template first holes)
  | reference {path args} : (∀ n ∈ path, IsName n) → (∀ t ∈ args, TypeTerm.Spelled t) →
      TypeTerm.Spelled (.reference path args)
  | query {path args} : (∀ n ∈ path, IsName n) → (∀ t ∈ args, TypeTerm.Spelled t) →
      TypeTerm.Spelled (.query path args)
  | queryImport {source path own args} : (∀ n ∈ path, IsName n) → (∀ t ∈ own, TypeTerm.Spelled t) →
      (∀ t ∈ args, TypeTerm.Spelled t) → TypeTerm.Spelled (.queryImport source path own args)
  | imported {source path args} : (∀ n ∈ path, IsName n) → (∀ t ∈ args, TypeTerm.Spelled t) →
      TypeTerm.Spelled (.imported source path args)
  | function {gs ps r} : (∀ p ∈ ps, Parameter.Spelled p) → TypeTerm.Spelled r →
      TypeTerm.Spelled (.function gs ps r)
  | constructor {isAbstract gs ps r} : (∀ p ∈ ps, Parameter.Spelled p) → TypeTerm.Spelled r →
      TypeTerm.Spelled (.constructor isAbstract gs ps r)
  | object {ms} : (∀ m ∈ ms, Signature.Spelled m) → TypeTerm.Spelled (.object ms)
  | array {t} : TypeTerm.Spelled t → TypeTerm.Spelled (.array t)
  | tuple {es} : (∀ e ∈ es, TupleElement.Spelled e) → TypeTerm.Spelled (.tuple es)
  | union {ts} : (∀ t ∈ ts, TypeTerm.Spelled t) → TypeTerm.Spelled (.union ts)
  | intersection {ts} : (∀ t ∈ ts, TypeTerm.Spelled t) → TypeTerm.Spelled (.intersection ts)
  | conditional {checked bound yes no} : TypeTerm.Spelled checked → TypeTerm.Spelled bound →
      TypeTerm.Spelled yes → TypeTerm.Spelled no →
      TypeTerm.Spelled (.conditional checked bound yes no)
  | infer {name bound} : IsName name → (∀ t ∈ bound, TypeTerm.Spelled t) →
      TypeTerm.Spelled (.infer name bound)
  | parenthesized {t} : TypeTerm.Spelled t → TypeTerm.Spelled (.parenthesized t)
  | operator {o t} : TypeTerm.Spelled t → TypeTerm.Spelled (.operator o t)
  | indexed {t i} : TypeTerm.Spelled t → TypeTerm.Spelled i → TypeTerm.Spelled (.indexed t i)
  | mapped {readonly name keys renamed isOptional value} : IsName name → TypeTerm.Spelled keys →
      (∀ t ∈ renamed, TypeTerm.Spelled t) → (∀ t ∈ value, TypeTerm.Spelled t) →
      TypeTerm.Spelled (.mapped readonly name keys renamed isOptional value)
  | predicate {asserts subject t} : IsName subject → (∀ u ∈ t, TypeTerm.Spelled u) →
      TypeTerm.Spelled (.predicate asserts subject t)

inductive Hole.Spelled : Hole → Prop
  | mk {t chunk} : TypeTerm.Spelled t → IsChunk chunk.toList true → Hole.Spelled (.mk t chunk)

inductive Parameter.Spelled : Parameter → Prop
  | named {n isOptional t} : IsName n → (∀ u ∈ t, TypeTerm.Spelled u) →
      Parameter.Spelled (.named n isOptional t)
  | rest {n t} : IsName n → (∀ u ∈ t, TypeTerm.Spelled u) → Parameter.Spelled (.rest n t)
  | restPattern {o} : Parameter.Spelled (.restPattern o)
  | arrayPattern {o} : Parameter.Spelled (.arrayPattern o)
  | objectPattern {o} : Parameter.Spelled (.objectPattern o)

inductive Signature.Spelled : Signature → Prop
  | property {readonly key isOptional t} : key.Spelled → (∀ u ∈ t, TypeTerm.Spelled u) →
      Signature.Spelled (.property readonly key isOptional t)
  | method {key isOptional gs ps r} : key.Spelled → (∀ p ∈ ps, Parameter.Spelled p) →
      (∀ t ∈ r, TypeTerm.Spelled t) → Signature.Spelled (.method key isOptional gs ps r)
  | getter {key t} : key.Spelled → (∀ u ∈ t, TypeTerm.Spelled u) → Signature.Spelled (.getter key t)
  | setter {key p} : key.Spelled → Parameter.Spelled p → Signature.Spelled (.setter key p)
  | call {gs ps r o} : (∀ p ∈ ps, Parameter.Spelled p) → (∀ t ∈ r, TypeTerm.Spelled t) →
      Signature.Spelled (.call gs ps r o)
  | construct {gs ps r o} : (∀ p ∈ ps, Parameter.Spelled p) → (∀ t ∈ r, TypeTerm.Spelled t) →
      Signature.Spelled (.construct gs ps r o)
  | index {readonly name keys t o} : IsName name → TypeTerm.Spelled keys →
      (∀ u ∈ t, TypeTerm.Spelled u) → Signature.Spelled (.index readonly name keys t o)

/-- A type in a tuple. Only there one need not be there, or may be there more than once. -/
inductive TypeTerm.SpelledElement : TypeTerm → Prop
  | one {t} : TypeTerm.Spelled t → TypeTerm.SpelledElement t
  | optional {t} : TypeTerm.Spelled t → TypeTerm.SpelledElement (.optional t)
  | rest {t} : TypeTerm.Spelled t → TypeTerm.SpelledElement (.rest t)

inductive TupleElement.Spelled : TupleElement → Prop
  | plain {t} : TypeTerm.SpelledElement t → TupleElement.Spelled (.plain t)
  | labelled {takesRest label isOptional t} : IsName label → TypeTerm.SpelledElement t →
      TupleElement.Spelled (.labelled takesRest label isOptional t)

end

inductive ClassMember.Spelled : ClassMember → Prop
  | constructor {key ps} : key.Spelled → (∀ p ∈ ps, p.Spelled) → Spelled (.constructor key ps)
  | method {key ps r} : key.Spelled → (∀ p ∈ ps, p.Spelled) → (∀ t ∈ r, t.Spelled) →
      Spelled (.method key ps r)
  | field {key t e} : key.Spelled → Spelled (.field key t e)
  | empty : Spelled .empty
  | privateMethod {o} : Spelled (.privateMethod o)
  | privateField {o} : Spelled (.privateField o)
  | index {o} : Spelled (.index o)
  | staticBlock {o} : Spelled (.staticBlock o)
  | accessor {o} : Spelled (.accessor o)

/-- The members and parameters of an item, and the type of an alias, are spelled as a text may spell
them. -/
inductive Item.Spelled : Item → Prop
  | enumeration {n vs} : Spelled (.enumeration n vs)
  | classType {n s ms} : (∀ m ∈ ms, m.Spelled) → Spelled (.classType n s ms)
  | interface {n bs ms} : (∀ m ∈ ms, m.Spelled) → Spelled (.interface n bs ms)
  | function {n ps} : (∀ p ∈ ps, p.Spelled) → Spelled (.function n ps)
  | typeAlias {n t} : t.Spelled → Spelled (.typeAlias n t)
  | variableList {vs} : Spelled (.variableList vs)
  | namespaceBlock {o} : Spelled (.namespaceBlock o)
  | augmentation {o} : Spelled (.augmentation o)
  | using {o} : Spelled (.using o)
  | statement {o} : Spelled (.statement o)
  | silent : Spelled .silent

/-! What rules hand on to each other. -/

def Operand.Spelled (o : Operand) : Prop := o.expression.Spelled

def Binding.Spelled : Binding → Prop
  | .name n => IsName n
  | _ => True

def ClassRest.Spelled (c : ClassRest) : Prop := ∀ m ∈ c.members, m.Spelled

def MemberKey.Spelled : MemberKey → Prop
  | .visible k => k.Spelled
  | .hidden _ => True

/-! Parsers. -/

/-- Of spelled tokens a parser reads what has a property, and it leaves spelled ones. -/
def Keeps {α : Type} (P : α → Prop) (p : Parse α) : Prop :=
  ∀ ⦃ts rest : List Token⦄ ⦃a : α⦄, p ts = some (a, rest) → (∀ t ∈ ts, t.lexeme.Spelled) →
    P a ∧ ∀ t ∈ rest, t.lexeme.Spelled

namespace Keeps
open Parse (bind_eq_some map_eq_some)

variable {α β : Type} {P Q : α → Prop} {R : β → Prop}

theorem pure {a : α} (h : P a) : Keeps P (Pure.pure a : Parse α) := by
  rintro ts rest b e hts
  cases e
  exact ⟨h, hts⟩

theorem pureSome {a : α} (h : P a) :
    Keeps (fun a? => ∀ a ∈ a?, P a) (Pure.pure (some a) : Parse (Option α)) :=
  pure (by simpa using h)

theorem pureNone : Keeps (fun a? => ∀ a ∈ a?, P a) (Pure.pure none : Parse (Option α)) := pure nofun

theorem refuse : Keeps P (Parse.refuse : Parse α) := nofun

theorem bind {p : Parse α} {k : α → Parse β} (hp : Keeps P p) (hk : ∀ a, P a → Keeps R (k a)) :
    Keeps R (p >>= k) := by
  intro ts rest b e hts
  obtain ⟨a, mid, ha, hb⟩ := bind_eq_some.1 e
  obtain ⟨hP, hmid⟩ := hp ha hts
  exact hk a hP hb hmid

/-- What is read first does not count. -/
theorem after {p : Parse α} {k : α → Parse β} (hp : Keeps P p) (hk : ∀ a, Keeps R (k a)) :
    Keeps R (p >>= k) := hp.bind fun a _ => hk a

theorem mono {p : Parse α} (hp : Keeps P p) (h : ∀ a, P a → Q a) : Keeps Q p :=
  fun _ _ _ e hts => ⟨h _ (hp e hts).1, (hp e hts).2⟩

theorem map {p : Parse α} {f : α → β} (hp : Keeps P p) (hf : ∀ a, P a → R (f a)) :
    Keeps R (f <$> p) := hp.bind fun a ha => pure (hf a ha)

theorem mapSome {p : Parse α} (hp : Keeps P p) : Keeps (fun a? => ∀ a ∈ a?, P a) (some <$> p) :=
  map hp fun _ ha => by simpa using ha

theorem ite {c : Prop} [Decidable c] {p q : Parse α} (hp : Keeps P p) (hq : Keeps P q) :
    Keeps P (if c then p else q) := by
  split
  · exact hp
  · exact hq

/-! Single tokens. -/

theorem ofSuffix {p : Parse α} (h : ∀ ⦃ts rest a⦄, p ts = some (a, rest) → rest <:+ ts) :
    Keeps (fun _ => True) p :=
  fun _ _ _ e hts => ⟨trivial, fun t ht => hts t ((h e).mem ht)⟩

/-- A parser that takes the next token or none. -/
theorem ofTail {p : Parse α}
    (h : ∀ ⦃ts rest a⦄, p ts = some (a, rest) → rest = ts.tail ∨ rest = ts) :
    Keeps (fun _ => True) p := by
  refine ofSuffix fun ts rest a e => ?_
  obtain rfl | rfl := h e
  · exact List.tail_suffix _
  · exact List.suffix_refl _

theorem sees {p : Ahead} : Keeps (fun _ => True) (Parse.sees p) := ofTail fun _ _ _ e => by
  cases e
  exact .inr rfl

theorem offset : Keeps (fun _ => True) Parse.offset := ofTail fun ts _ _ e => by
  cases ts <;> cases e
  exact .inr rfl

theorem next : Keeps Lexeme.Spelled Parse.next := by
  intro ts rest l e hts
  cases ts <;> cases e
  exact ⟨hts _ List.mem_cons_self, fun t ht => hts t (List.mem_cons_of_mem _ ht)⟩

theorem symbol {s : String} : Keeps (fun _ => True) (Parse.symbol s) := ofTail fun ts _ _ e => by
  unfold Parse.symbol at e
  split at e <;> cases e
  exact .inl rfl

theorem word {w : String} : Keeps (fun _ => True) (Parse.word w) := ofTail fun ts _ _ e => by
  unfold Parse.word at e
  split at e <;> cases e
  exact .inl rfl

theorem wordThat {p : String → Bool} : Keeps IsName (Parse.wordThat p) := by
  intro ts rest w e hts
  unfold Parse.wordThat at e
  split at e
  · split at e <;> cases e
    exact ⟨hts _ List.mem_cons_self, fun t ht => hts t (List.mem_cons_of_mem _ ht)⟩
  · cases e

theorem anyWord : Keeps IsName Parse.anyWord := wordThat

theorem boundName : Keeps IsName Parse.boundName := wordThat

theorem string : Keeps (fun _ => True) Parse.string := ofTail fun ts _ _ e => by
  unfold Parse.string at e
  split at e <;> cases e
  exact .inl rfl

theorem takes {p : Ahead} : Keeps (fun _ => True) (Parse.takes p) := ofTail fun ts _ _ e => by
  unfold Parse.takes at e
  split at e <;> cases e
  · exact .inl rfl
  · exact .inr rfl

theorem takesSymbol {s : String} : Keeps (fun _ => True) (Parse.takesSymbol s) := takes

theorem takesWord {w : String} : Keeps (fun _ => True) (Parse.takesWord w) := takes

theorem require {b : Bool} : Keeps (fun _ => True) (Parse.require b) := ite (pure trivial) refuse

theorem endStatement : Keeps (fun _ => True) Parse.endStatement := ofTail fun ts _ _ e => by
  unfold Parse.endStatement at e
  split at e
  · cases e
    exact .inl rfl
  · split at e <;> cases e
    exact .inr rfl

theorem takesOperatorIn {os : List String} :
    Keeps (fun _ => True) (Source.takesOperatorIn os) := ofSuffix fun ts _ _ e => by
  unfold Source.takesOperatorIn at e
  split at e
  · split at e <;> cases e
    · exact List.drop_suffix _ _
    · exact List.suffix_refl _
  · cases e
    exact List.suffix_refl _

/-! Choices. -/

theorem given {p : Ahead} {q : Parse α} (hq : Keeps P q) :
    Keeps (fun a? => ∀ a ∈ a?, P a) (Parse.given p q) := by
  intro ts rest a? e hts
  unfold Parse.given at e
  split at e
  · obtain ⟨a, mid, ha, e⟩ := map_eq_some.1 e
    cases e
    simpa using hq ha hts
  · cases e
    exact ⟨nofun, hts⟩

theorem attempt {p : Parse α} (hp : Keeps P p) :
    Keeps (fun a? => ∀ a ∈ a?, P a) (Parse.attempt p) := by
  intro ts rest a? e hts
  obtain ⟨a, rfl, ha⟩ | ⟨rfl, -, rfl⟩ := Parse.attempt_eq_some.1 e
  · simpa using hp ha hts
  · exact ⟨nofun, hts⟩

theorem orElse {p q : Parse α} (hp : Keeps P p) (hq : Keeps P q) :
    Keeps P (Parse.orElse p q) := by
  intro ts rest a e hts
  unfold Parse.orElse at e
  split at e
  · next h =>
    cases e
    exact hp h hts
  · exact hq e hts

theorem foresees {p : Parse Bool} : Keeps (fun _ => True) (Parse.foresees p) :=
  ofTail fun ts _ _ e => by
    unfold Parse.foresees at e
    split at e <;> cases e <;> exact .inr rfl

theorem within {p : Parse α} (hp : Keeps P p) (n : Nat) : Keeps P (p.within n) := by
  intro ts rest a e hts
  unfold Parse.within at e
  split at e
  · exact hp e hts
  · cases e

/-! Repetitions. -/

theorem growFor {step : α → Parse (Option α)}
    (h : ∀ a, P a → Keeps (fun b? => ∀ b ∈ b?, P b) (step a)) (n : Nat) {a : α} (ha : P a) :
    Keeps P (Parse.growFor step n a) := by
  induction n generalizing a with
  | zero => exact refuse
  | succ n ih =>
    refine (h a ha).bind fun b? hb => ?_
    cases b? with
    | none => exact pure ha
    | some b => exact ih (hb b rfl)

theorem grow {step : α → Parse (Option α)} {a : α}
    (h : ∀ a, P a → Keeps (fun b? => ∀ b ∈ b?, P b) (step a)) (ha : P a) :
    Keeps P (Parse.grow step a) := fun _ _ _ e hts =>
  growFor (fun a ha _ _ _ e hts => h a ha (Parse.of_advancing e) hts) _ ha e hts

theorem during {p : Ahead} {item : Parse α} (h : Keeps P item) :
    Keeps (fun as => ∀ a ∈ as, P a) (Parse.during p item) := by
  intro ts rest as e
  have hread := Parse.repeats_of_during e
  clear e
  induction hread with
  | done => exact fun hts => ⟨nofun, hts⟩
  | more _ ha _ ih =>
    intro hts
    obtain ⟨hP, hmid⟩ := h ha hts
    obtain ⟨has, hrest⟩ := ih hmid
    exact ⟨List.forall_mem_cons.2 ⟨hP, has⟩, hrest⟩

theorem commaList {close : String} {item : Parse α} (h : Keeps P item) :
    Keeps (fun as => ∀ a ∈ as, P a) (Parse.commaList close item) := by
  have hitem : Keeps P (item >>= fun a => Parse.sees (Ahead.symbol close) >>= fun b =>
      if b then Pure.pure a else Parse.symbol "," >>= fun _ => Pure.pure a) :=
    h.bind fun _ ha => sees.bind fun _ _ => ite (pure ha) (symbol.bind fun _ _ => pure ha)
  exact (during hitem).bind fun _ has => symbol.bind fun _ _ => pure has

theorem separated {between : String} {item : Parse α} (h : Keeps P item) :
    Keeps (fun as => ∀ a ∈ as, P a) (Parse.separated between item) :=
  h.bind fun _ ha => (during (symbol.bind fun _ _ => h)).bind fun _ has =>
    pure (List.forall_mem_cons.2 ⟨ha, has⟩)

end Keeps

end ApiSurface.Source
