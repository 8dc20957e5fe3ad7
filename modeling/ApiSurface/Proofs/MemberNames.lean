import ApiSurface.Proofs.Lookup
import ApiSurface.Proofs.SourceOrder
import ApiSurface.Proofs.SpelledModules

/-! Names of members. The name of a member tells the property that its key stands for: words,
strings, numbers and chains of names in brackets are spelled apart from each other. Only a single
name in brackets is stored like the word without them. -/
namespace ApiSurface
open Source Text

namespace Source

/-- The property that a key stands for. A string goes by its value as it is decoded, a computed key
by the chain of names that is computed. -/
inductive Property
  | word (name : String)
  | string (value : String)
  | number (spelling : String)
  | computed (path : List String)
  deriving Repr, DecidableEq

namespace Property

/-- How a property is stored. -/
def text : Property → String
  | word n => n
  | string v => "'" ++ v ++ "'"
  | number s => s
  | computed path => "[" ++ dotted path ++ "]"

def Spelled : Property → Prop
  | word n => IsName n
  | string _ => True
  | number s => IsNumeral s
  | computed path => path ≠ [] ∧ ∀ n ∈ path, IsName n

end Property

/-- The property of a key, unless it is computed otherwise. A string counts by its decoded text, so
two that differ only in lone surrogates, which all decode alike, are the key of one property. -/
def Key.property? (k : Key) : Option Property :=
  match k.value with
  | .name n _ => some (if k.computed then .computed [n] else .word n)
  | .string v _ => some (.string v)
  | .number s _ => some (.number s)
  | e => e.path?.map .computed

/-- A single name in brackets. -/
def Key.isBracketedName (k : Key) : Bool :=
  match k.value with
  | .name _ _ => k.computed
  | _ => false

def ClassMember.key? : ClassMember → Option Key
  | .constructor key _ | .method key _ _ | .field key _ _ => some key
  | _ => none

def Signature.key? : Signature → Option Key
  | .property _ key _ _ | .method key _ _ _ _ | .getter key _ | .setter key _ => some key
  | _ => none

/-- The keys of the members of a class or an interface. -/
def Item.keys : Item → List Key
  | .classType _ _ ms => ms.filterMap (·.key?)
  | .interface _ _ ms => ms.filterMap (·.key?)
  | _ => []

/-! Stored names tell the properties. -/

theorem point_not_mem_of_isName {n : String} (h : IsName n) : '.' ∉ n.toList := fun hmem =>
  ne_of_isIdentifierPart (h.part _ hmem) (by decide) rfl

theorem dotted_injective {p q : List String} (hp : p ≠ [] ∧ ∀ n ∈ p, IsName n)
    (hq : q ≠ [] ∧ ∀ n ∈ q, IsName n) (h : dotted p = dotted q) : p = q := by
  have hsplit : ∀ r : List String, (r ≠ [] ∧ ∀ n ∈ r, IsName n) →
      (dotted r).toList.splitOn '.' = r.map String.toList := by
    intro r ⟨hne, hr⟩
    rw [dotted, String.toList_intercalate]
    refine List.splitOn_intercalate '.' ?_ (by simpa using hne)
    intro l hl
    obtain ⟨n, hn, rfl⟩ := List.mem_map.1 hl
    exact point_not_mem_of_isName (hr n hn)
  have hmap : p.map String.toList = q.map String.toList := by
    rw [← hsplit p hp, ← hsplit q hq, h]
  exact List.map_injective_iff.2 (fun _ _ => String.toList_inj.1) hmap

namespace Property

/-- The sort of a property. -/
inductive Shape
  | word
  | string
  | number
  | computed

def shape : Property → Shape
  | word _ => .word
  | string _ => .string
  | number _ => .number
  | computed _ => .computed

/-- The sort of what is stored by a name, as its first character tells. -/
def shapeOf (c : Char) : Shape :=
  if c = '\'' then .string else if c = '[' then .computed
  else if isNumeralStart c then .number else .word

theorem shapeOf_of_start {c : Char} (h : isIdentifierStart c) : shapeOf c = .word := by
  have hpart := isIdentifierPart_of_start h
  have hdigit := isDigit_of_isIdentifierStart h
  have hpoint : c ≠ '.' := ne_of_isIdentifierPart hpart (by decide)
  have hquote : c ≠ '\'' := ne_of_isIdentifierPart hpart (by decide)
  have hbracket : c ≠ '[' := ne_of_isIdentifierPart hpart (by decide)
  simp [shapeOf, isNumeralStart, hdigit, hpoint, hquote, hbracket]

theorem shapeOf_of_numeral {c : Char} (h : isNumeralStart c) : shapeOf c = .number := by
  have hquote : c ≠ '\'' := by rintro rfl; revert h; decide
  have hbracket : c ≠ '[' := by rintro rfl; revert h; decide
  simp [shapeOf, h, hquote, hbracket]

theorem exists_head {p : Property} (h : p.Spelled) :
    ∃ c cs, p.text.toList = c :: cs ∧ shapeOf c = p.shape := by
  cases p with
  | word n =>
    obtain ⟨c, cs, hn, hc, -⟩ := h
    exact ⟨c, cs, hn, shapeOf_of_start hc⟩
  | string v => exact ⟨'\'', v.toList ++ ['\''], by simp [text], rfl⟩
  | number s =>
    obtain ⟨⟨c, cs, hs, hc⟩, -⟩ := h
    exact ⟨c, cs, hs, shapeOf_of_numeral hc⟩
  | computed path => exact ⟨'[', (dotted path).toList ++ [']'], by simp [text], rfl⟩

theorem shape_eq_of_text_eq {p q : Property} (hp : p.Spelled) (hq : q.Spelled)
    (h : p.text = q.text) : p.shape = q.shape := by
  obtain ⟨c, cs, hc, hshape⟩ := exists_head hp
  obtain ⟨d, ds, hd, hshape'⟩ := exists_head hq
  rw [h, hd] at hc
  obtain ⟨rfl, -⟩ := List.cons.inj hc
  exact hshape.symm.trans hshape'

/-- Properties that are stored alike are the same. -/
theorem text_injective {p q : Property} (hp : p.Spelled) (hq : q.Spelled)
    (h : p.text = q.text) : p = q := by
  have hshape := shape_eq_of_text_eq hp hq h
  cases p <;> cases q <;> try cases hshape
  case word n m => rw [show n = m from h]
  case string v w =>
    rw [text, text, String.append_left_inj, String.append_right_inj] at h
    rw [h]
  case number s t => rw [show s = t from h]
  case computed p q =>
    rw [text, text, String.append_left_inj, String.append_right_inj] at h
    rw [dotted_injective hp hq h]

end Property

/-! Names of keys. -/

/-- A member is named as the property of its key is stored, and a single name in brackets like the
word without them. -/
inductive Key.Names : Key → String → Prop
  | property {k p} : k.isBracketedName = false → k.property? = some p → Names k p.text
  | bracketed {x o} : Names ⟨true, .name x o⟩ x

theorem Key.names_of_text {k : Key} {n : String} (h : k.text = .ok n) : k.Names n := by
  obtain ⟨computed, e⟩ := k
  cases e with
  | name x o =>
    cases h
    cases computed with
    | true => exact .bracketed
    | false => exact .property (p := .word n) rfl rfl
  | string v o =>
    cases h
    exact .property (p := .string v) rfl rfl
  | number s o =>
    cases h
    exact .property (p := .number n) rfl rfl
  | member e p =>
    simp only [text, Expression.keyText] at h
    split at h
    · next path hpath =>
      cases h
      exact .property (p := .computed path) rfl (Option.map_eq_some_iff.2 ⟨path, hpath, rfl⟩)
    · cases h
  | _ => cases h

theorem Key.names_of_memberText {k : Key} {n : String} (h : k.memberText = .ok n) : k.Names n := by
  unfold memberText at h
  split at h
  · cases h
  · exact names_of_text h

theorem Key.spelled_of_property? {k : Key} {p : Property} (hk : k.Spelled)
    (hp : k.property? = some p) : p.Spelled := by
  obtain ⟨computed, e⟩ := k
  cases hk with
  | name hn =>
    cases hp
    cases computed with
    | true => exact ⟨nofun, by simpa using hn⟩
    | false => exact hn
  | string =>
    cases hp
    trivial
  | number hs =>
    cases hp
    exact hs.numeral
  | @member e p? he hname =>
    obtain ⟨path, hpath, rfl⟩ := Option.map_eq_some_iff.1 hp
    exact Expression.Spelled.path (.member he hname) hpath
  | _ => cases hp

theorem Key.names_inj {k l : Key} {n m : String} (hk : k.Spelled) (hl : l.Spelled)
    (hkn : k.Names n) (hlm : l.Names m) (hkb : k.isBracketedName = false)
    (hlb : l.isBracketedName = false) : n = m ↔ k.property? = l.property? := by
  cases hkn with
  | bracketed => cases hkb
  | @property _ p _ hp =>
    cases hlm with
    | bracketed => cases hlb
    | @property _ q _ hq =>
      rw [hp, hq, Option.some_inj]
      exact ⟨Property.text_injective (spelled_of_property? hk hp) (spelled_of_property? hl hq),
        congrArg _⟩

/-! Keys and members. -/

theorem Signature.Declares.names {m : Signature} {d : Declaration} (h : m.Declares d) :
    ∃ k, m.key? = some k ∧ k.Names d.name := by
  cases h with
  | property hn _ | method hn _ _ | getter hn _ | setter hn _ =>
    exact ⟨_, rfl, Key.names_of_text hn⟩

theorem ClassMember.Declares.names {m : ClassMember} {d : Declaration} (h : m.Declares d) :
    ∃ k, m.key? = some k ∧ k.Names d.name := by
  cases h with
  | constructor hn _ | method hn _ _ | field hn _ => exact ⟨_, rfl, Key.names_of_memberText hn⟩

theorem forall₂_filterMap {α β γ : Type} {f : α → Option β} {R : α → γ → Prop} {S : β → γ → Prop}
    {as : List α} {cs : List γ} (h : List.Forall₂ R as cs)
    (hf : ∀ a c, R a c → ∃ b, f a = some b ∧ S b c) : List.Forall₂ S (as.filterMap f) cs := by
  induction h with
  | nil => exact .nil
  | cons hR _ ih =>
    obtain ⟨b, hb, hS⟩ := hf _ _ hR
    rw [List.filterMap_cons_some hb]
    exact .cons hS ih

theorem ClassMember.filterMap_key?_filter (ms : List ClassMember) :
    (ms.filter (!·.isEmpty)).filterMap (·.key?) = ms.filterMap (·.key?) := by
  rw [List.filterMap_filter]
  refine List.filterMap_congr fun m _ => ?_
  cases m <;> rfl

/-- Every member of a class or an interface comes of a key, in order. -/
theorem Item.Declares.names {i : Item} {d : Declaration} (h : i.Declares [d]) :
    List.Forall₂ (fun k m => k.Names m.name) i.keys d.members := by
  cases h with
  | enumeration | function | typeAlias => exact .nil
  | classType hms | derivedClass _ hms =>
    rw [keys, ← ClassMember.filterMap_key?_filter]
    exact forall₂_filterMap hms fun _ _ => ClassMember.Declares.names
  | interface _ hms => exact forall₂_filterMap hms fun _ _ => Signature.Declares.names
  | variableList hvs =>
    obtain ⟨_, _, ⟨-⟩, -, -⟩ := List.forall₂_cons_right_iff.1 hvs
    exact .nil

theorem Item.Spelled.keys {i : Item} (h : i.Spelled) : ∀ k ∈ i.keys, k.Spelled := by
  cases h with
  | classType hms =>
    intro k hk
    obtain ⟨m, hm, hkey⟩ := List.mem_filterMap.1 hk
    cases hms m hm <;> cases hkey <;> assumption
  | interface hms =>
    intro k hk
    obtain ⟨m, hm, hkey⟩ := List.mem_filterMap.1 hk
    cases hms m hm <;> cases hkey <;> assumption
  | _ => exact nofun

end Source

theorem Declaration.exists_lastNamed? {d : Declaration} {ds : List Declaration} (h : d ∈ ds) :
    ∃ e ∈ ds, e.name = d.name ∧ lastNamed? d.name ds = some e := by
  have hsome : (lastNamed? d.name ds).isSome := by
    simpa [lastNamed?, List.find?_isSome] using ⟨d, h, rfl⟩
  obtain ⟨e, he⟩ := Option.isSome_iff_exists.1 hsome
  exact ⟨e, mem_of_lastNamed? he, name_of_lastNamed? he, he⟩

/-- Members are named by the properties of their keys, a single name in brackets like the word
without them. Keys that are no such name stand for the same property exactly when their members have
the same name. Where no key is one, the index of the members finds under each name a member whose
key stands for the property that is asked for. -/
theorem names_of_members {source : String} {items : List Item} {i : Item} {d : Declaration}
    (hitems : itemsOf (withoutMark source.toList) = .ok items) (hi : i ∈ items)
    (hd : i.declarations = .ok [d]) :
    List.Forall₂ (fun k m => k.Names m.name) i.keys d.members ∧
      (∀ a ∈ i.keys.zip d.members, ∀ b ∈ i.keys.zip d.members, a.1.isBracketedName = false →
        b.1.isBracketedName = false → (a.2.name = b.2.name ↔ a.1.property? = b.1.property?)) ∧
      ((∀ k ∈ i.keys, k.isBracketedName = false) → ∀ a ∈ i.keys.zip d.members,
        ∃ b ∈ i.keys.zip d.members, b.1.property? = a.1.property? ∧
          (Index.ofMembers (some d)).get? a.2.name = some ⟨b.2, some d.name⟩) := by
  have hspelled : ∀ k ∈ i.keys, k.Spelled :=
    (spelled_of_itemsOf hitems i hi).keys
  have hnames : List.Forall₂ (fun k m => k.Names m.name) i.keys d.members := by
    obtain ⟨-, he⟩ | hd := Item.declarations_eq_ok.1 hd
    · cases he
    · exact hd.names
  have hinj : ∀ a ∈ i.keys.zip d.members, ∀ b ∈ i.keys.zip d.members,
      a.1.isBracketedName = false → b.1.isBracketedName = false →
        (a.2.name = b.2.name ↔ a.1.property? = b.1.property?) := fun a ha b hb =>
    Key.names_inj (hspelled _ (List.of_mem_zip ha).1) (hspelled _ (List.of_mem_zip hb).1)
      (List.forall₂_zip hnames ha) (List.forall₂_zip hnames hb)
  refine ⟨hnames, hinj, fun hplain a ha => ?_⟩
  obtain ⟨m, hm, hname, hlast⟩ := Declaration.exists_lastNamed? (List.of_mem_zip ha).2
  have hlength : d.members.length ≤ i.keys.length := hnames.length_eq.ge
  rw [← List.map_snd_zip hlength] at hm
  obtain ⟨b, hb, rfl⟩ := List.mem_map.1 hm
  refine ⟨b, hb, ?_, ?_⟩
  · exact (hinj b hb a ha (hplain _ (List.of_mem_zip hb).1) (hplain _ (List.of_mem_zip ha).1)).1
      hname
  · rw [Index.ofMembers, Index.get?_ofList, hlast, Option.map_some]

/-- Whether a text has a class or an interface with these keys and with these names of members. -/
def holdsMembers (source : String) (keys : List Key) (names : List String) : Bool :=
  match itemsOf (withoutMark source.toList) with
  | .ok items => items.any fun i =>
    match i.declarations with
    | .ok [d] => i.keys = keys && d.members.map (·.name) = names
    | _ => false
  | .error _ => false

theorem exists_of_holdsMembers {source : String} {keys : List Key} {names : List String}
    (h : holdsMembers source keys names) :
    ∃ items i d, itemsOf (withoutMark source.toList) = .ok items ∧ i ∈ items ∧
      i.declarations = .ok [d] ∧ i.keys = keys ∧ d.members.map (·.name) = names := by
  unfold holdsMembers at h
  split at h
  · next items hitems =>
    obtain ⟨i, hi, h⟩ := List.any_eq_true.1 h
    split at h
    · next d hd =>
      obtain ⟨hkeys, hmembers⟩ : _ ∧ _ := by simpa using h
      exact ⟨items, i, d, hitems, hi, hd, hkeys, hmembers⟩
    · cases h
  · cases h

/-- A word, a string and a chain that are spelled alike are told apart, and found. -/
theorem names_of_members_spelled_alike :
    ∃ items i d, (itemsOf (withoutMark "class C \x7b x; 'x'; [x.x] \x7d".toList) = .ok items ∧
        i ∈ items ∧ i.declarations = .ok [d]) ∧
      d.members.map (·.name) = ["x", "'x'", "[x.x]"] ∧
      ∀ a ∈ i.keys.zip d.members, ∃ b ∈ i.keys.zip d.members, b.1.property? = a.1.property? ∧
        (Index.ofMembers (some d)).get? a.2.name = some ⟨b.2, some d.name⟩ := by
  have h : holdsMembers "class C \x7b x; 'x'; [x.x] \x7d" [⟨false, .name "x" 10⟩,
      ⟨false, .string "x" 13⟩, ⟨true, .member (.name "x" 19) (some "x")⟩]
      ["x", "'x'", "[x.x]"] := by decide +kernel
  obtain ⟨items, i, d, hitems, hi, hd, hkeys, hmembers⟩ := exists_of_holdsMembers h
  refine ⟨items, i, d, ⟨hitems, hi, hd⟩, hmembers, (names_of_members hitems hi hd).2.2 ?_⟩
  rw [hkeys]
  decide

/-- A name in brackets is another property than the word, and it is stored like the word. -/
theorem not_names_of_members_apart :
    ¬ ∀ (source : String) (items : List Item) (i : Item) (d : Declaration),
      itemsOf (withoutMark source.toList) = .ok items → i ∈ items → i.declarations = .ok [d] →
        ∀ a ∈ i.keys.zip d.members, ∀ b ∈ i.keys.zip d.members,
          a.1.property? ≠ b.1.property? → a.2.name ≠ b.2.name := by
  intro hall
  have h : holdsMembers "interface I { x: A; [x]: B; }"
      [⟨false, .name "x" 14⟩, ⟨true, .name "x" 21⟩] ["x", "x"] := by decide +kernel
  obtain ⟨items, i, d, hitems, hi, hd, hkeys, hmembers⟩ := exists_of_holdsMembers h
  obtain ⟨m, ms, hms, hm, hrest⟩ := List.map_eq_cons_iff.1 hmembers
  obtain ⟨n, ns, rfl, hn, -⟩ := List.map_eq_cons_iff.1 hrest
  have happart := hall _ items i d hitems hi hd
  rw [hkeys, hms] at happart
  exact happart _ List.mem_cons_self _ (List.mem_cons_of_mem _ List.mem_cons_self)
    (by simp [Key.property?]) (hm.trans hn.symm)

end ApiSurface
