import ApiSurface.Comparison
import ApiSurface.Proofs.NestedTypes
import ApiSurface.Proofs.SourceOrder
import ApiSurface.Proofs.SpelledModules

/-! Display texts of methods. A text joins names and types with commas and colons that types have,
too, but it tells them apart where no type has a text between quotes in it. -/
namespace ApiSurface
open Source

/-! Parameter lists. -/

/-- A parameter whose name and type stay apart in a list. -/
inductive Declaration.Apart : Declaration → Prop
  | parameter {n t} : (∀ c ∈ n.toList, isNumeralPart c) → Leads t 0 0 → Apart (.parameter n t)

theorem cancel_of_notMem {α : Type} {a : α} {as bs rest rest' : List α} (ha : a ∉ as)
    (hb : a ∉ bs) (h : as ++ a :: rest = bs ++ a :: rest') : as = bs ∧ rest = rest' := by
  induction as generalizing bs with
  | nil =>
    cases bs with
    | nil => exact ⟨rfl, (List.cons.inj h).2⟩
    | cons b bs => exact absurd ((List.cons.inj h).1 ▸ List.mem_cons_self) hb
  | cons c as ih =>
    cases bs with
    | nil => exact absurd ((List.cons.inj h).1 ▸ List.mem_cons_self) ha
    | cons b bs =>
      obtain ⟨rfl, htail⟩ := List.cons.inj h
      obtain ⟨rfl, hrest⟩ := ih (List.not_mem_of_not_mem_cons ha)
        (List.not_mem_of_not_mem_cons hb) htail
      exact ⟨rfl, hrest⟩

namespace Declaration

theorem Apart.leads_fragment {d : Declaration} (h : d.Apart) :
    d.fragment ≠ "" ∧ Leads d.fragment 0 0 := by
  obtain ⟨hn, ht⟩ := h
  exact ⟨by simp [fragment], ((Leads.number hn).append fun _ _ => rfl).append ht⟩

/-- The name of a parameter ends at the first colon. -/
theorem fragment_inj {d e : Declaration} (hd : d.Apart) (he : e.Apart)
    (h : d.fragment = e.fragment) : d = e := by
  obtain ⟨hn, -⟩ := hd
  obtain ⟨hm, -⟩ := he
  have colon {n : String} (hn : ∀ c ∈ n.toList, isNumeralPart c) : ':' ∉ n.toList := fun hmem =>
    absurd (hn _ hmem) (by decide)
  have hlist := congrArg String.toList h
  simp only [fragment, name, type?, Option.getD_some, String.toList_append, List.append_assoc]
    at hlist
  obtain ⟨hname, htype⟩ := cancel_of_notMem (colon hn) (colon hm) hlist
  rw [String.toList_inj.1 hname, String.toList_inj.1 (List.cons.inj htype).2]

theorem map_fragment_inj {ds es : List Declaration} (hd : ∀ d ∈ ds, d.Apart)
    (he : ∀ e ∈ es, e.Apart) (h : ds.map fragment = es.map fragment) : ds = es := by
  induction ds generalizing es with
  | nil => exact (List.map_eq_nil_iff.1 h.symm).symm
  | cons d ds ih =>
    cases es with
    | nil => cases h
    | cons e es =>
      obtain ⟨hde, hrest⟩ := List.cons.inj h
      obtain ⟨hd, hds⟩ := List.forall_mem_cons.1 hd
      obtain ⟨he, hes⟩ := List.forall_mem_cons.1 he
      rw [fragment_inj hd he hde, ih hds hes hrest]

/-- A parameter list in brackets tells its parameters and what follows it. -/
theorem parameterList_cancel {ds es : List Declaration} (hd : ∀ d ∈ ds, d.Apart)
    (he : ∀ e ∈ es, e.Apart) {rest rest' : List Char}
    (h : (parameterList ds).toList ++ ')' :: rest = (parameterList es).toList ++ ')' :: rest') :
    ds = es ∧ rest = rest' := by
  have hfragments {ds : List Declaration} (hd : ∀ d ∈ ds, d.Apart) :
      ∀ s ∈ ds.map fragment, s ≠ "" ∧ Leads s 0 0 :=
    List.forall_mem_map.2 fun d h => (hd d h).leads_fragment
  obtain ⟨hmap, hrest⟩ := commas_cancel (hfragments hd) (hfragments he) h
  exact ⟨map_fragment_inj hd he hmap, hrest⟩

end Declaration

/-- Methods with one name in one place are shown alike exactly if they have the same parameters and
the same result. -/
theorem Linked.display_method_inj {n : String} {parent : Option String}
    {ds es : List Declaration} {r r' : Option String} (hd : ∀ d ∈ ds, d.Apart)
    (he : ∀ e ∈ es, e.Apart) (hr : r.isSome = r'.isSome) :
    (⟨.method n ds r, parent⟩ : Linked).display = (⟨.method n es r', parent⟩ : Linked).display ↔
      ds = es ∧ r = r' := by
  refine ⟨fun h => ?_, by rintro ⟨rfl, rfl⟩; rfl⟩
  have hlist := congrArg String.toList h
  match r, r', hr with
  | none, none, _ =>
    simp only [display, qualifier, String.toList_append, List.append_assoc,
      List.append_cancel_left_eq] at hlist
    exact ⟨(Declaration.parameterList_cancel hd he hlist).1, rfl⟩
  | some r, some r', _ =>
    simp only [display, qualifier, String.toList_append, List.append_assoc,
      List.append_cancel_left_eq] at hlist
    obtain ⟨hparameters, hresult⟩ := Declaration.parameterList_cancel hd he hlist
    have htexts := (List.cons.inj (List.cons.inj hresult).2).2
    exact ⟨hparameters, congrArg some (String.toList_inj.1 htexts)⟩

/-! Methods as they are written. -/

namespace Source

def ClassMember.parameters : ClassMember → List Parameter
  | .constructor _ ps | .method _ ps _ => ps
  | _ => []

def Signature.parameters : Signature → List Parameter
  | .method _ _ _ ps _ | .call _ ps _ _ | .construct _ ps _ _ => ps
  | .setter _ p => [p]
  | _ => []

/-- What an item declares by itself or as a member, with the parameters that are written for it. -/
inductive Item.Writes : Item → Linked → List Parameter → Prop
  | function {n ps ds} : List.Forall₂ Parameter.Declares ps ds →
      Writes (.function n ps) ⟨.method (defaultName n) ds none, none⟩ ps
  | element {n s ms m d} : m ∈ ms → m.Declares d →
      Writes (.classType n s ms) ⟨d, some (defaultName n)⟩ m.parameters
  | signature {n bs ms m d} : m ∈ ms → m.Declares d →
      Writes (.interface n bs ms) ⟨d, some n⟩ m.parameters

theorem Parameter.Declares.apart {p : Parameter} {d : Declaration} (h : p.Declares d)
    (hp : p.Spelled) (hq : p.isUnquoted) : d.Apart := by
  cases h with
  | @named n _ t _ hs =>
    cases hp with | named hn ht =>
    exact .parameter (fun c hc => isNumeralPart_of_part (hn.part c hc))
      (annotationText_nests t ht hq hs)
  | @rest n t _ hs =>
    cases hp with | rest hn ht =>
    have hname : ∀ c ∈ ("..." ++ n).toList, isNumeralPart c := by
      have hpart := fun c hc => isNumeralPart_of_part (hn.part c hc)
      simpa [isNumeralPart] using hpart
    exact .parameter hname (annotationText_nests t ht hq hs)

theorem apart_of_declares {ps : List Parameter} {ds : List Declaration}
    (h : List.Forall₂ Parameter.Declares ps ds) (hps : ∀ p ∈ ps, p.Spelled)
    (hq : parametersUnquoted ps) : ∀ d ∈ ds, d.Apart := by
  induction h with
  | nil => exact nofun
  | @cons p d ps ds hd _ ih =>
    obtain ⟨hp, hps⟩ := List.forall_mem_cons.1 hps
    obtain ⟨hqp, hqps⟩ := Bool.and_eq_true_iff.1 hq
    exact List.forall_mem_cons.2 ⟨hd.apart hp hqp, ih hps hqps⟩

namespace Item.Writes

variable {i : Item} {ps : List Parameter}

theorem declares {n : String} {ds : List Declaration} {r parent : Option String}
    (h : i.Writes ⟨.method n ds r, parent⟩ ps) : List.Forall₂ Parameter.Declares ps ds := by
  cases h with
  | function hps => exact hps
  | element _ hd =>
    cases hd with | constructor _ hps | method _ hps _ => exact hps
  | signature _ hd =>
    cases hd with
    | method _ hps _ => exact hps
    | getter => exact .nil
    | setter _ hp => exact .cons hp .nil

theorem spelled {l : Linked} (h : i.Writes l ps) (hi : i.Spelled) : ∀ p ∈ ps, p.Spelled := by
  cases h with
  | function =>
    cases hi with | function hps => exact hps
  | element hm _ =>
    cases hi with | classType hms =>
    cases hms _ hm with
    | constructor _ hps | method _ hps _ => exact hps
    | _ => exact nofun
  | signature hm _ =>
    cases hi with | interface hms =>
    cases hms _ hm with
    | method _ hps _ | call hps _ | construct hps _ => exact hps
    | setter _ hp => exact List.forall_mem_singleton.2 hp
    | _ => exact nofun

end Item.Writes

end Source

/-- A declaration of a structure, by itself or as a member. -/
inductive Structure.Holds (s : Structure) : Linked → Prop
  | top {d} : d ∈ s → Holds s ⟨d, none⟩
  | member {c d} : c ∈ s → d ∈ c.members → Holds s ⟨d, some c.name⟩

/-- A declaration is written in a text, with these parameters. -/
def WrittenIn (source : String) (l : Linked) (ps : List Parameter) : Prop :=
  ∃ items, itemsOf (withoutMark source.toList) = .ok items ∧ ∃ i ∈ items, i.Writes l ps

theorem exists_of_forall₂ {α β : Type} {R : α → β → Prop} {as : List α} {bs : List β}
    (h : List.Forall₂ R as bs) {b : β} (hb : b ∈ bs) : ∃ a ∈ as, R a b := by
  induction h with
  | nil => cases hb
  | @cons a c as _ hR _ ih =>
    obtain rfl | hb := List.mem_cons.1 hb
    · exact ⟨a, List.mem_cons_self, hR⟩
    · obtain ⟨a, ha, hR⟩ := ih hb
      exact ⟨a, List.mem_cons_of_mem _ ha, hR⟩

theorem Source.Item.Declares.exists_writes {i : Item} {ds : List Declaration} (h : i.Declares ds)
    {d : Declaration} (hd : d ∈ ds) :
    (d.kind = .method → ∃ ps, i.Writes ⟨d, none⟩ ps) ∧
      ∀ m ∈ d.members, ∃ ps, i.Writes ⟨m, some d.name⟩ ps := by
  cases h with
  | enumeration | typeAlias =>
    cases List.mem_singleton.1 hd
    exact ⟨nofun, nofun⟩
  | function hps =>
    cases List.mem_singleton.1 hd
    exact ⟨fun _ => ⟨_, .function hps⟩, nofun⟩
  | classType hms | derivedClass _ hms =>
    cases List.mem_singleton.1 hd
    refine ⟨nofun, fun m hm => ?_⟩
    obtain ⟨element, helement, hdeclares⟩ := exists_of_forall₂ hms hm
    exact ⟨_, .element (List.mem_of_mem_filter helement) hdeclares⟩
  | interface _ hms =>
    cases List.mem_singleton.1 hd
    refine ⟨nofun, fun m hm => ?_⟩
    obtain ⟨signature, hsignature, hdeclares⟩ := exists_of_forall₂ hms hm
    exact ⟨_, .signature hsignature hdeclares⟩
  | variableList hvs =>
    obtain ⟨v, -, ⟨-⟩⟩ := exists_of_forall₂ hvs hd
    exact ⟨nofun, nofun⟩

theorem exists_item_of_extract {source : String} {s : Structure} (h : extract source = .ok s)
    {d : Declaration} (hd : d ∈ s) : ∃ items, itemsOf (withoutMark source.toList) = .ok items ∧
      ∃ i ∈ items, ∃ ds, i.Declares ds ∧ d ∈ ds := by
  obtain ⟨items, hitems, hs⟩ := Except.bind_eq_ok.1 h
  obtain ⟨dss, hdss, rfl⟩ := Except.map_eq_ok.1 (Except.mapError_eq_ok.1 hs)
  obtain ⟨ds, hds, hd⟩ := List.mem_flatten.1 hd
  obtain ⟨i, hi, hdeclarations⟩ := exists_of_forall₂ (Except.mapM_eq_ok.1 hdss) hds
  obtain ⟨-, rfl⟩ | hdeclares := Item.declarations_eq_ok.1 hdeclarations
  · cases hd
  · exact ⟨items, hitems, i, hi, ds, hdeclares, hd⟩

/-- Every method of a structure is written in its text. -/
theorem exists_writtenIn {source : String} {s : Structure} (h : extract source = .ok s)
    {l : Linked} (hl : s.Holds l) (hm : l.kind = .method) : ∃ ps, WrittenIn source l ps := by
  cases hl with
  | top hd =>
    obtain ⟨items, hitems, i, hi, ds, hds, hd⟩ := exists_item_of_extract h hd
    obtain ⟨ps, hps⟩ := (hds.exists_writes hd).1 hm
    exact ⟨ps, items, hitems, i, hi, hps⟩
  | member hc hd =>
    obtain ⟨items, hitems, i, hi, ds, hds, hc⟩ := exists_item_of_extract h hc
    obtain ⟨ps, hps⟩ := (hds.exists_writes hc).2 _ hd
    exact ⟨ps, items, hitems, i, hi, hps⟩

/-- No text between quotes is in the type of a parameter of what an item declares. -/
def Source.Item.isUnquoted : Item → Bool
  | .function _ ps => parametersUnquoted ps
  | .classType _ _ ms => ms.all (parametersUnquoted ·.parameters)
  | .interface _ _ ms => ms.all (parametersUnquoted ·.parameters)
  | _ => true

theorem Source.Item.Writes.unquoted {i : Item} {l : Linked} {ps : List Parameter}
    (h : i.Writes l ps) (hq : i.isUnquoted) : parametersUnquoted ps := by
  cases h with
  | function => exact hq
  | element hm | signature hm => exact List.all_eq_true.1 hq _ hm

/-- Whether no text between quotes is in the type of a parameter of a text. -/
def isUnquotedText (source : String) : Bool :=
  match itemsOf (withoutMark source.toList) with
  | .ok items => items.all (·.isUnquoted)
  | .error _ => true

theorem unquoted_of_isUnquotedText {source : String} (h : isUnquotedText source) {l : Linked}
    {ps : List Parameter} (hps : WrittenIn source l ps) : parametersUnquoted ps := by
  obtain ⟨items, hitems, i, hi, hwrites⟩ := hps
  rw [isUnquotedText, hitems] at h
  exact hwrites.unquoted (List.all_eq_true.1 h i hi)

theorem apart_of_writtenIn {source : String} {n : String} {ds : List Declaration}
    {r parent : Option String} {ps : List Parameter}
    (h : WrittenIn source ⟨.method n ds r, parent⟩ ps) (hq : parametersUnquoted ps) :
    ∀ d ∈ ds, d.Apart := by
  obtain ⟨items, hitems, i, hi, hwrites⟩ := h
  have hspelled := spelled_of_itemsOf hitems i hi
  exact apart_of_declares hwrites.declares (hwrites.spelled hspelled) hq

/-- Two methods with one name in one place, both with a result or both without, are shown alike
exactly if their parameters and results are the same, and only then no change is found between them,
provided that no text between quotes is written in the types of their parameters. -/
theorem display_method_eq_iff {source source' : String} {s s' : Structure}
    (h : extract source = .ok s) (h' : extract source' = .ok s') {n : String}
    {parent : Option String} {ds ds' : List Declaration} {r r' : Option String}
    (hl : s.Holds ⟨.method n ds r, parent⟩) (hl' : s'.Holds ⟨.method n ds' r', parent⟩)
    (hq : ∀ ps, WrittenIn source ⟨.method n ds r, parent⟩ ps → parametersUnquoted ps)
    (hq' : ∀ ps, WrittenIn source' ⟨.method n ds' r', parent⟩ ps → parametersUnquoted ps)
    (hr : r.isSome = r'.isSome) :
    ((⟨.method n ds r, parent⟩ : Linked).display = (⟨.method n ds' r', parent⟩ : Linked).display ↔
        ds = ds' ∧ r = r') ∧
      (Comparison.compareLeaves (some ⟨.method n ds r, parent⟩)
          (some ⟨.method n ds' r', parent⟩) = [] ↔ ds = ds' ∧ r = r') := by
  obtain ⟨ps, hps⟩ := exists_writtenIn h hl rfl
  obtain ⟨ps', hps'⟩ := exists_writtenIn h' hl' rfl
  have hdisplay : (⟨.method n ds r, parent⟩ : Linked).display =
      (⟨.method n ds' r', parent⟩ : Linked).display ↔ ds = ds' ∧ r = r' :=
    Linked.display_method_inj (apart_of_writtenIn hps (hq ps hps))
      (apart_of_writtenIn hps' (hq' ps' hps')) hr
  refine ⟨hdisplay, ?_⟩
  rw [Comparison.compareLeaves, ← hdisplay]
  split <;> simp_all

/-- Whether a text has a class or an interface with such a method. -/
def showsMethod (source parent n : String) (fragments : List String) (r : Option String) : Bool :=
  match extract source with
  | .ok s => s.any fun c => c.name = parent && c.members.any fun
    | .method m ds r' => m = n && ds.map (·.fragment) = fragments && r' = r
    | _ => false
  | .error _ => false

theorem exists_of_showsMethod {source parent n : String} {fragments : List String}
    {r : Option String} (h : showsMethod source parent n fragments r) :
    ∃ s ds, extract source = .ok s ∧ s.Holds ⟨.method n ds r, some parent⟩ ∧
      ds.map (·.fragment) = fragments := by
  unfold showsMethod at h
  split at h
  · next s hs =>
    obtain ⟨c, hc, h⟩ := List.any_eq_true.1 h
    obtain ⟨hparent, h⟩ := Bool.and_eq_true_iff.1 h
    obtain ⟨m, hm, h⟩ := List.any_eq_true.1 h
    split at h
    · next ds _ =>
      obtain ⟨⟨rfl, hfragments⟩, rfl⟩ : (_ ∧ _) ∧ _ := by simpa using h
      obtain rfl := of_decide_eq_true hparent
      exact ⟨s, ds, hs, .member hc hm, hfragments⟩
    · cases h
  · cases h

/-- A comma inside of a type and one behind a parameter are told apart. -/
theorem display_method_eq_iff_comma :
    ∃ s s' ds ds', (extract "interface I { f(a: (b: B, c: C) => D): E }" = .ok s ∧
        extract "interface I { f(a: (b: B) => D, c: C): E }" = .ok s' ∧
        s.Holds ⟨.method "f" ds (some "E"), some "I"⟩ ∧
        s'.Holds ⟨.method "f" ds' (some "E"), some "I"⟩) ∧
      (⟨.method "f" ds (some "E"), some "I"⟩ : Linked).display ≠
        (⟨.method "f" ds' (some "E"), some "I"⟩ : Linked).display := by
  obtain ⟨s, ds, h, hl, hds⟩ := exists_of_showsMethod
    (show showsMethod "interface I { f(a: (b: B, c: C) => D): E }" "I" "f"
      ["a: (b: B, c: C) => D"] (some "E") by decide +kernel)
  obtain ⟨s', ds', h', hl', hds'⟩ := exists_of_showsMethod
    (show showsMethod "interface I { f(a: (b: B) => D, c: C): E }" "I" "f"
      ["a: (b: B) => D", "c: C"] (some "E") by decide +kernel)
  have hsame := (display_method_eq_iff h h' hl hl'
    (fun _ => unquoted_of_isUnquotedText (by decide +kernel))
    (fun _ => unquoted_of_isUnquotedText (by decide +kernel)) rfl).1
  refine ⟨s, s', ds, ds', ⟨h, h', hl, hl'⟩, fun he => ?_⟩
  rw [(hsame.1 he).1, hds'] at hds
  exact absurd hds (by decide)

end ApiSurface
