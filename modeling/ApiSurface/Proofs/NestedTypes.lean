import ApiSurface.Proofs.Nesting
import ApiSurface.Proofs.SpelledTrees

/-! Brackets in the text of a type. Where a type has no text between quotes in it, its text leads
through its brackets back to where it started, and meets no comma outside of them. -/
namespace ApiSurface.Source

/-! Types without quotes in them. Type parameters are not shown and do not count. -/

def Key.isUnquoted (k : Key) : Bool :=
  match k.value with
  | .string _ _ => false
  | _ => true

mutual

/-- No literal of a string or a template, no import and no quoted key is in a type. -/
def TypeTerm.isUnquoted : TypeTerm → Bool
  | .string _ | .template _ _ | .queryImport _ _ _ _ | .imported _ _ _ => false
  | .keyword _ | .this | .number _ | .bigint _ | .boolean _ => true
  | .reference _ args | .query _ args => areUnquoted args
  | .function _ ps r | .constructor _ _ ps r => parametersUnquoted ps && r.isUnquoted
  | .object ms => signaturesUnquoted ms
  | .array t | .optional t | .rest t | .parenthesized t | .operator _ t => t.isUnquoted
  | .tuple es => elementsUnquoted es
  | .union ts | .intersection ts => areUnquoted ts
  | .conditional checked bound yes no =>
    checked.isUnquoted && bound.isUnquoted && yes.isUnquoted && no.isUnquoted
  | .infer _ bound => unquoted? bound
  | .indexed t i => t.isUnquoted && i.isUnquoted
  | .mapped _ _ keys renamed _ value => keys.isUnquoted && unquoted? renamed && unquoted? value
  | .predicate _ _ t => unquoted? t

def unquoted? : Option TypeTerm → Bool
  | none => true
  | some t => t.isUnquoted

def areUnquoted : List TypeTerm → Bool
  | [] => true
  | t :: ts => t.isUnquoted && areUnquoted ts

def Parameter.isUnquoted : Parameter → Bool
  | .named _ _ t | .rest _ t => unquoted? t
  | .restPattern _ | .arrayPattern _ | .objectPattern _ => true

def parametersUnquoted : List Parameter → Bool
  | [] => true
  | p :: ps => p.isUnquoted && parametersUnquoted ps

def Signature.isUnquoted : Signature → Bool
  | .property _ key _ t | .getter key t => key.isUnquoted && unquoted? t
  | .method key _ _ ps r => key.isUnquoted && parametersUnquoted ps && unquoted? r
  | .setter key p => key.isUnquoted && p.isUnquoted
  | .call _ ps r _ | .construct _ ps r _ => parametersUnquoted ps && unquoted? r
  | .index _ _ keys t _ => keys.isUnquoted && unquoted? t

def signaturesUnquoted : List Signature → Bool
  | [] => true
  | m :: ms => m.isUnquoted && signaturesUnquoted ms

def TupleElement.isUnquoted : TupleElement → Bool
  | .plain t | .labelled _ _ _ t => t.isUnquoted

def elementsUnquoted : List TupleElement → Bool
  | [] => true
  | e :: es => e.isUnquoted && elementsUnquoted es

end

/-! Texts that are made of others. -/

/-- Whatever a result is, it has a property. -/
def Brings {α : Type} (P : α → Prop) (x : Except Refusal α) : Prop := ∀ ⦃a⦄, x = .ok a → P a

namespace Brings

variable {α β : Type} {P : α → Prop} {Q : β → Prop}

theorem ok {a : α} (h : P a) : Brings P (.ok a) := by
  rintro _ ⟨⟩
  exact h

theorem refused {c : Construct} {o : Nat} : Brings P (refused c o) := by
  rintro _ ⟨⟩

theorem bind {x : Except Refusal α} {k : α → Except Refusal β} (hx : Brings P x)
    (hk : ∀ a, P a → Brings Q (k a)) : Brings Q (x >>= k) := by
  intro b h
  obtain ⟨a, ha, hb⟩ := Except.bind_eq_ok.1 h
  exact hk a (hx ha) hb

end Brings

/-- The text leads back to where it starts. -/
abbrev Nests : Except Refusal String → Prop := Brings (Leads · 0 0)

abbrev AllNest : Except Refusal (List String) → Prop := Brings fun ss => ∀ s ∈ ss, Leads s 0 0

theorem Brings.cons {x : Except Refusal String} {xs : Except Refusal (List String)} (hx : Nests x)
    (hxs : AllNest xs) : AllNest (do return (← x) :: (← xs)) :=
  hx.bind fun _ h => hxs.bind fun _ hs => .ok (List.forall_mem_cons.2 ⟨h, hs⟩)

section Parts

variable {s : String} {ss : List String} {n : Nat}

theorem leads_braced (h : Leads s 1 1) : Leads (braced s) 0 0 :=
  (Leads.append (fun _ _ => rfl) h).append fun _ _ => rfl

theorem leads_argumentsText (h : ∀ s ∈ ss, Leads s 0 0) : Leads (argumentsText ss) 0 0 := by
  cases ss with
  | nil => exact .empty
  | cons s ss => exact (Leads.append (fun _ _ => rfl) (.commas h)).append fun _ _ => rfl

theorem leads_markText (h : Leads s n n) (m : Option Mark) : Leads (markText s m) n n := by
  match m with
  | none => exact .empty
  | some .plain => exact h
  | some .plus => exact .append (fun _ _ => rfl) h
  | some .minus => exact .append (fun _ _ => rfl) h

/-- A word that need not be there. -/
theorem leads_ite (h : Leads s n n) (b : Bool) : Leads (if b then s else "") n n := by
  cases b
  · exact .empty
  · exact h

theorem leads_parameterText {t : String} (hs : Leads s 0 0) (ht : Leads t 0 0) :
    Leads (parameterText (s, t)) 0 0 := (hs.append fun _ _ => rfl).append ht

theorem leads_word (o : TypeOperator) : Leads o.word n n := by
  cases o <;> exact fun _ _ => rfl

end Parts

theorem Key.text_nests {k : Key} (hk : k.Spelled) (hq : k.isUnquoted) : Nests k.text := by
  obtain ⟨computed, e⟩ := k
  cases hk with
  | name hn => exact .ok (.name hn)
  | string => cases hq
  | number hs => exact .ok (.number hs.numeral.2)
  | @member e p? he hname =>
    simp only [text, Expression.keyText]
    split
    · next path hpath =>
      have hnames := ((Expression.Spelled.member he hname).path hpath).2
      exact .ok ((Leads.append (fun _ _ => rfl) (.dotted hnames)).append fun _ _ => rfl)
    · exact .refused
  | _ => exact .refused

mutual

theorem TypeTerm.element_nests (t : TypeTerm) (ht : t.SpelledElement) (hq : t.isUnquoted) :
    Nests t.text := by
  cases t with
  | string | template | queryImport | imported => cases hq
  | optional u =>
    obtain ⟨⟨⟩⟩ | hu := ht
    rw [TypeTerm.text]
    exact (u.element_nests (.one hu) hq).bind fun _ h => .ok (h.append fun _ _ => rfl)
  | rest u =>
    obtain ⟨⟨⟩⟩ | - | hu := ht
    rw [TypeTerm.text]
    exact (u.element_nests (.one hu) hq).bind fun _ h => .ok (.append (fun _ _ => rfl) h)
  | keyword w =>
    have .one (.keyword hw) := ht
    exact .ok (.name hw)
  | this => exact .ok fun _ _ => rfl
  | number s =>
    have .one (.number hs) := ht
    exact .ok (.number hs.part)
  | bigint s =>
    have .one (.bigint hs) := ht
    exact .ok (.number hs.part)
  | boolean b => cases b <;> exact .ok fun _ _ => rfl
  | reference path args =>
    have .one (.reference hpath hargs) := ht
    rw [TypeTerm.text]
    exact (typeTexts_nest args hargs hq).bind fun _ h =>
      .ok ((Leads.dotted hpath).append (leads_argumentsText h))
  | query path args =>
    have .one (.query hpath hargs) := ht
    rw [TypeTerm.text]
    exact (typeTexts_nest args hargs hq).bind fun _ h =>
      .ok ((Leads.append (fun _ _ => rfl) (.dotted hpath)).append (leads_argumentsText h))
  | function gs ps r =>
    have .one (.function hps hr) := ht
    obtain ⟨hqps, hqr⟩ := Bool.and_eq_true_iff.1 hq
    rw [TypeTerm.text]
    exact (parameterTexts_nest ps hps hqps).bind fun _ h =>
      (r.element_nests (.one hr) hqr).bind fun _ h' =>
      .ok (((Leads.append (fun _ _ => rfl) (.commas h)).append fun _ _ => rfl).append h')
  | constructor isAbstract gs ps r =>
    have .one (.constructor hps hr) := ht
    obtain ⟨hqps, hqr⟩ := Bool.and_eq_true_iff.1 hq
    have hopen : Leads ((if isAbstract then "abstract " else "") ++ "new (") 0 1 :=
      (leads_ite (fun _ _ => rfl) _).append fun _ _ => rfl
    rw [TypeTerm.text]
    exact (parameterTexts_nest ps hps hqps).bind fun _ h =>
      (r.element_nests (.one hr) hqr).bind fun _ h' =>
      .ok (((hopen.append (.commas h)).append fun _ _ => rfl).append h')
  | object ms =>
    have .one (.object hms) := ht
    cases ms with
    | nil => exact .ok fun _ _ => rfl
    | cons m ms =>
      obtain ⟨hm, hms⟩ := List.forall_mem_cons.1 hms
      obtain ⟨hqm, hqms⟩ := Bool.and_eq_true_iff.1 hq
      rw [TypeTerm.text]
      exact (m.text_nests hm hqm).bind fun _ h => (signaturesText_nest ms hms hqms).bind
        fun _ hs => .ok (leads_braced ((Leads.append (fun _ _ => rfl)
          (.commas (List.forall_mem_cons.2 ⟨h, hs⟩))).append fun _ _ => rfl))
  | array t =>
    have .one (.array ht) := ht
    rw [TypeTerm.text]
    exact (t.element_nests (.one ht) hq).bind fun _ h => .ok (h.append fun _ _ => rfl)
  | operator o t =>
    have .one (.operator ht) := ht
    rw [TypeTerm.text]
    exact (t.element_nests (.one ht) hq).bind fun _ h =>
      .ok (((leads_word o).append fun _ _ => rfl).append h)
  | parenthesized t =>
    have .one (.parenthesized ht) := ht
    rw [TypeTerm.text]
    exact (t.element_nests (.one ht) hq).bind fun _ h =>
      .ok ((Leads.append (fun _ _ => rfl) (h.within 1)).append fun _ _ => rfl)
  | tuple es =>
    have .one (.tuple hes) := ht
    rw [TypeTerm.text]
    exact (elementsText_nest es hes hq).bind fun _ h =>
      .ok ((Leads.append (fun _ _ => rfl) (.commas h)).append fun _ _ => rfl)
  | union ts =>
    have .one (.union hts) := ht
    rw [TypeTerm.text]
    exact (typeTexts_nest ts hts hq).bind fun _ h => .ok (.intercalate (fun _ _ => rfl) h)
  | intersection ts =>
    have .one (.intersection hts) := ht
    rw [TypeTerm.text]
    exact (typeTexts_nest ts hts hq).bind fun _ h => .ok (.intercalate (fun _ _ => rfl) h)
  | conditional checked bound yes no =>
    have .one (.conditional hc hb hy hn) := ht
    obtain ⟨hq, hqn⟩ := Bool.and_eq_true_iff.1 hq
    obtain ⟨hq, hqy⟩ := Bool.and_eq_true_iff.1 hq
    obtain ⟨hqc, hqb⟩ := Bool.and_eq_true_iff.1 hq
    rw [TypeTerm.text]
    exact (checked.element_nests (.one hc) hqc).bind fun _ c =>
      (bound.element_nests (.one hb) hqb).bind fun _ b =>
      (yes.element_nests (.one hy) hqy).bind fun _ y =>
      (no.element_nests (.one hn) hqn).bind fun _ n =>
        .ok ((((((c.append fun _ _ => rfl).append b).append fun _ _ => rfl).append y).append
          fun _ _ => rfl).append n)
  | infer name bound =>
    have .one (.infer hname hbound) := ht
    rw [TypeTerm.text]
    exact (behindText_nests " extends " (fun _ _ => rfl) bound hbound hq).bind fun _ h =>
      .ok ((Leads.append (fun _ _ => rfl) (.name hname)).append h)
  | predicate asserts subject t =>
    have .one (.predicate hsubject ht) := ht
    rw [TypeTerm.text]
    exact (behindText_nests " is " (fun _ _ => rfl) t ht hq).bind fun _ h =>
      .ok (((leads_ite (fun _ _ => rfl) _).append (.name hsubject)).append h)
  | indexed t i =>
    have .one (.indexed ht hi) := ht
    obtain ⟨hqt, hqi⟩ := Bool.and_eq_true_iff.1 hq
    rw [TypeTerm.text]
    exact (t.element_nests (.one ht) hqt).bind fun _ h =>
      (i.element_nests (.one hi) hqi).bind fun _ h' =>
      .ok (((h.append fun _ _ => rfl).append (h'.within 1)).append fun _ _ => rfl)
  | mapped readonly name keys renamed isOptional value =>
    have .one (.mapped hname hkeys hrenamed hvalue) := ht
    obtain ⟨hq, hqv⟩ := Bool.and_eq_true_iff.1 hq
    obtain ⟨hqk, hqr⟩ := Bool.and_eq_true_iff.1 hq
    rw [TypeTerm.text]
    refine (keys.element_nests (.one hkeys) hqk).bind fun k hk =>
      (behindText_nests " as " (fun _ _ => rfl) renamed hrenamed hqr).bind fun n hn =>
      (behindText_nests ": " (fun _ _ => rfl) value hvalue hqv).bind fun v hv => .ok ?_
    have hopen : Leads (" " ++ markText "readonly " readonly ++ "[") 1 2 :=
      (Leads.append (fun _ _ => rfl) (leads_markText (fun _ _ => rfl) _)).append fun _ _ => rfl
    have hinside : Leads (name ++ " in " ++ k ++ n) 0 0 :=
      (((Leads.name hname).append fun _ _ => rfl).append hk).append hn
    have hbehind : Leads ("]" ++ markText "?" isOptional ++ v ++ " ") 2 1 :=
      ((Leads.append (fun _ _ => rfl) (leads_markText (fun _ _ => rfl) _)).append
        (hv.within 1)).append fun _ _ => rfl
    have hwhole := (hopen.append (hinside.within 2)).append hbehind
    exact leads_braced (by simpa only [String.append_assoc] using hwhole)

theorem behindText_nests (word : String) (hw : Leads word 0 0) (t : Option TypeTerm)
    (ht : ∀ u ∈ t, u.Spelled) (hq : unquoted? t) : Nests (behindText word t) := by
  cases t with
  | none => exact .ok .empty
  | some t =>
    rw [behindText]
    exact (t.element_nests (.one (ht t rfl)) hq).bind fun _ h => .ok (hw.append h)

theorem annotationText_nests (t : Option TypeTerm) (ht : ∀ u ∈ t, u.Spelled)
    (hq : unquoted? t) : Nests (annotationText t) := by
  cases t with
  | none => exact .ok fun _ _ => rfl
  | some t =>
    rw [annotationText]
    exact t.element_nests (.one (ht t rfl)) hq

theorem typeTexts_nest (ts : List TypeTerm) (hts : ∀ t ∈ ts, t.Spelled) (hq : areUnquoted ts) :
    AllNest (typeTexts ts) := by
  cases ts with
  | nil => exact .ok nofun
  | cons t ts =>
    obtain ⟨ht, hts⟩ := List.forall_mem_cons.1 hts
    obtain ⟨hqt, hqts⟩ := Bool.and_eq_true_iff.1 hq
    rw [typeTexts]
    exact (t.element_nests (.one ht) hqt).cons (typeTexts_nest ts hts hqts)

theorem Parameter.parts_nest (p : Parameter) (hp : p.Spelled) (hq : p.isUnquoted) :
    Brings (fun parts => Leads parts.1 0 0 ∧ Leads parts.2 0 0) p.parts := by
  cases p with
  | named n isOptional t =>
    have .named hn ht := hp
    rw [Parameter.parts]
    exact (annotationText_nests t ht hq).bind fun _ h => .ok ⟨.name hn, h⟩
  | rest n t =>
    have .rest hn ht := hp
    rw [Parameter.parts]
    exact (annotationText_nests t ht hq).bind fun _ h =>
      .ok ⟨.append (fun _ _ => rfl) (.name hn), h⟩
  | _ =>
    rw [Parameter.parts]
    exact .refused

theorem parameterTexts_nest (ps : List Parameter) (hps : ∀ p ∈ ps, p.Spelled)
    (hq : parametersUnquoted ps) : AllNest (parameterTexts ps) := by
  cases ps with
  | nil => exact .ok nofun
  | cons p ps =>
    obtain ⟨hp, hps⟩ := List.forall_mem_cons.1 hps
    obtain ⟨hqp, hqps⟩ := Bool.and_eq_true_iff.1 hq
    rw [parameterTexts]
    exact (p.parts_nest hp hqp).bind fun _ h => (parameterTexts_nest ps hps hqps).bind fun _ hs =>
      .ok (List.forall_mem_cons.2 ⟨leads_parameterText h.1 h.2, hs⟩)

theorem Signature.text_nests (m : Signature) (hm : m.Spelled) (hq : m.isUnquoted) :
    Nests m.text := by
  cases m with
  | property readonly key isOptional t =>
    have .property hkey ht := hm
    obtain ⟨hqk, hqt⟩ := Bool.and_eq_true_iff.1 hq
    rw [Signature.text]
    exact (key.text_nests hkey hqk).bind fun _ k => (annotationText_nests t ht hqt).bind
      fun _ h => .ok (((((leads_ite (fun _ _ => rfl) _).append k).append
        (leads_ite (fun _ _ => rfl) _)).append fun _ _ => rfl).append h)
  | method key isOptional gs ps r =>
    have .method hkey hps hr := hm
    obtain ⟨hq, hqr⟩ := Bool.and_eq_true_iff.1 hq
    obtain ⟨hqk, hqps⟩ := Bool.and_eq_true_iff.1 hq
    rw [Signature.text]
    exact (key.text_nests hkey hqk).bind fun _ k => (parameterTexts_nest ps hps hqps).bind
      fun _ h => (annotationText_nests r hr hqr).bind fun _ h' =>
        .ok (((((k.append (leads_ite (fun _ _ => rfl) _)).append fun _ _ => rfl).append
          (.commas h)).append fun _ _ => rfl).append h')
  | getter key t =>
    have .getter hkey ht := hm
    obtain ⟨hqk, hqt⟩ := Bool.and_eq_true_iff.1 hq
    rw [Signature.text]
    exact (key.text_nests hkey hqk).bind fun _ k => (annotationText_nests t ht hqt).bind
      fun _ h => .ok (((Leads.append (fun _ _ => rfl) k).append fun _ _ => rfl).append h)
  | setter key p =>
    have .setter hkey hp := hm
    obtain ⟨hqk, hqp⟩ := Bool.and_eq_true_iff.1 hq
    rw [Signature.text]
    exact (p.parts_nest hp hqp).bind fun _ h => (key.text_nests hkey hqk).bind fun _ k =>
      .ok ((((Leads.append (fun _ _ => rfl) k).append fun _ _ => rfl).append
        ((leads_parameterText h.1 h.2).within 1)).append fun _ _ => rfl)
  | call gs ps r o =>
    have .call hps hr := hm
    obtain ⟨hqps, hqr⟩ := Bool.and_eq_true_iff.1 hq
    rw [Signature.text]
    exact (parameterTexts_nest ps hps hqps).bind fun _ h => (annotationText_nests r hr hqr).bind
      fun _ h' => .ok (((Leads.append (fun _ _ => rfl) (.commas h)).append
        fun _ _ => rfl).append h')
  | construct gs ps r o =>
    have .construct hps hr := hm
    obtain ⟨hqps, hqr⟩ := Bool.and_eq_true_iff.1 hq
    rw [Signature.text]
    exact (parameterTexts_nest ps hps hqps).bind fun _ h => (annotationText_nests r hr hqr).bind
      fun _ h' => .ok (((Leads.append (fun _ _ => rfl) (.commas h)).append
        fun _ _ => rfl).append h')
  | index readonly name keys t o =>
    have .index hname hkeys ht := hm
    obtain ⟨hqk, hqt⟩ := Bool.and_eq_true_iff.1 hq
    rw [Signature.text]
    exact (keys.element_nests (.one hkeys) hqk).bind fun _ k => (annotationText_nests t ht hqt).bind
      fun _ h => .ok (((((leads_ite (fun _ _ => rfl) _).append fun _ _ => rfl).append
        ((leads_parameterText (.name hname) k).within 1)).append fun _ _ => rfl).append h)

theorem signaturesText_nest (ms : List Signature) (hms : ∀ m ∈ ms, m.Spelled)
    (hq : signaturesUnquoted ms) : AllNest (signaturesText ms) := by
  cases ms with
  | nil => exact .ok nofun
  | cons m ms =>
    obtain ⟨hm, hms⟩ := List.forall_mem_cons.1 hms
    obtain ⟨hqm, hqms⟩ := Bool.and_eq_true_iff.1 hq
    rw [signaturesText]
    exact (m.text_nests hm hqm).cons (signaturesText_nest ms hms hqms)

theorem TupleElement.text_nests (e : TupleElement) (he : e.Spelled) (hq : e.isUnquoted) :
    Nests e.text := by
  cases e with
  | plain t =>
    have .plain ht := he
    rw [TupleElement.text]
    exact t.element_nests ht hq
  | labelled takesRest label isOptional t =>
    have .labelled hlabel ht := he
    rw [TupleElement.text]
    exact (t.element_nests ht hq).bind fun _ h =>
      .ok ((leads_ite (fun _ _ => rfl) _).append (leads_parameterText (.name hlabel) h))

theorem elementsText_nest (es : List TupleElement) (hes : ∀ e ∈ es, e.Spelled)
    (hq : elementsUnquoted es) : AllNest (elementsText es) := by
  cases es with
  | nil => exact .ok nofun
  | cons e es =>
    obtain ⟨he, hes⟩ := List.forall_mem_cons.1 hes
    obtain ⟨hqe, hqes⟩ := Bool.and_eq_true_iff.1 hq
    rw [elementsText]
    exact (e.text_nests he hqe).cons (elementsText_nest es hes hqes)

end

end ApiSurface.Source
