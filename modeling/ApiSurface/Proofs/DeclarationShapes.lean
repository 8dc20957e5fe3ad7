import Mathlib
import ApiSurface.Proofs.SourceOrder

/-! Where declarations stand in the structure of a text. At the top there are no parameters, and
functions have no result. Classes and interfaces hold properties and methods with a result, methods
hold parameters, and everything else holds nothing. -/
namespace ApiSurface

namespace Declaration

/-- The declarations right inside a declaration. -/
def nested : Declaration → List Declaration
  | classType _ ds _ | interface _ ds _ | method _ ds _ => ds
  | _ => []

/-- The result of a method, if it has one. -/
def result? : Declaration → Option String
  | method _ _ r => r
  | _ => none

/-- The declaration stands in a list or, at any depth, inside a declaration of the list. -/
inductive Within (d : Declaration) : List Declaration → Prop
  | here {ds : List Declaration} : d ∈ ds → Within d ds
  | deeper {ds : List Declaration} {e : Declaration} : e ∈ ds → Within d e.nested → Within d ds

theorem not_within_nil (d : Declaration) : ¬Within d [] := by
  rintro (h | ⟨h, -⟩) <;> cases h

/-! The three levels of a structure. -/

/-- What stands in a parameter list. -/
inductive IsParameter : Declaration → Prop
  | parameter (name type : String) : IsParameter (parameter name type)

/-- What stands in a class or an interface. -/
inductive IsMember : Declaration → Prop
  | method {ps : List Declaration} (name result : String) (holds : ∀ p ∈ ps, IsParameter p) :
      IsMember (method name ps (some result))
  | property (name type : String) : IsMember (property name type)

/-- What stands by itself. -/
inductive IsTopLevel : Declaration → Prop
  | enumeration (name : String) (values : List String) : IsTopLevel (enumeration name values)
  | classType {ms : List Declaration} (name : String) (superclass : Option String)
      (holds : ∀ m ∈ ms, IsMember m) : IsTopLevel (classType name ms superclass)
  | interface {ms : List Declaration} (name : String) (bases : List String)
      (holds : ∀ m ∈ ms, IsMember m) : IsTopLevel (interface name ms bases)
  | function {ps : List Declaration} (name : String) (holds : ∀ p ∈ ps, IsParameter p) :
      IsTopLevel (method name ps none)
  | property (name type : String) : IsTopLevel (property name type)
  | typeAlias (name type : String) : IsTopLevel (typeAlias name type)

/-- What is inside a declaration fits its kind. -/
structure HoldsFitting (d : Declaration) : Prop where
  members : d.kind.isContainer → ∀ m ∈ d.nested,
    m.kind = .property ∨ m.kind = .method ∧ m.result?.isSome
  parameters : d.kind = .method → ∀ p ∈ d.nested, p.kind = .parameter
  others : d.kind.isContainer = false → d.kind ≠ .method → d.nested = []

theorem holdsFitting_of_nested_nil {d : Declaration} (h : d.nested = []) : d.HoldsFitting := by
  constructor
  · intro _ m hm
    rw [h] at hm
    cases hm
  · intro _ p hp
    rw [h] at hp
    cases hp
  · exact fun _ _ => h

theorem IsParameter.kind_eq {d : Declaration} (h : IsParameter d) : d.kind = .parameter := by
  cases h
  rfl

theorem holdsFitting_method {ps : List Declaration} (name : String) (result : Option String)
    (h : ∀ p ∈ ps, IsParameter p) : (method name ps result).HoldsFitting where
  members hc := nomatch hc
  parameters _ p hp := (h p hp).kind_eq
  others _ hm := absurd rfl hm

theorem IsMember.kind_eq {d : Declaration} (h : IsMember d) :
    d.kind = .property ∨ d.kind = .method ∧ d.result?.isSome := by
  cases h with
  | method => exact .inr ⟨rfl, rfl⟩
  | property => exact .inl rfl

theorem IsTopLevel.kind_ne {d : Declaration} (h : IsTopLevel d) :
    d.kind ≠ .parameter ∧ (d.kind = .method → d.result? = none) := by
  cases h <;> exact ⟨nofun, fun _ => rfl⟩

/-! Whatever stands inside, level by level. -/

theorem holdsFitting_of_within_parameters {d : Declaration} {ps : List Declaration}
    (h : ∀ p ∈ ps, IsParameter p) (hd : Within d ps) : d.HoldsFitting := by
  cases hd with
  | here hd =>
    cases h d hd
    exact holdsFitting_of_nested_nil rfl
  | deeper he hd =>
    cases h _ he
    exact absurd hd (not_within_nil d)

theorem holdsFitting_of_within_members {d : Declaration} {ms : List Declaration}
    (h : ∀ m ∈ ms, IsMember m) (hd : Within d ms) : d.HoldsFitting := by
  cases hd with
  | here hd =>
    cases h d hd with
    | method name result holds => exact holdsFitting_method name _ holds
    | property => exact holdsFitting_of_nested_nil rfl
  | deeper he hd =>
    cases h _ he with
    | method _ _ holds => exact holdsFitting_of_within_parameters holds hd
    | property => exact absurd hd (not_within_nil d)

theorem IsTopLevel.holdsFitting {d : Declaration} (h : IsTopLevel d) : d.HoldsFitting := by
  cases h with
  | classType _ _ holds =>
    exact ⟨fun _ m hm => (holds m hm).kind_eq, nofun, nofun⟩
  | interface _ _ holds =>
    exact ⟨fun _ m hm => (holds m hm).kind_eq, nofun, nofun⟩
  | function name holds => exact holdsFitting_method name none holds
  | _ => exact holdsFitting_of_nested_nil rfl

theorem holdsFitting_of_within {d : Declaration} {s : Structure} (h : ∀ d ∈ s, IsTopLevel d)
    (hd : Within d s) : d.HoldsFitting := by
  cases hd with
  | here hd => exact (h d hd).holdsFitting
  | deeper he hd =>
    cases h _ he with
    | classType _ _ holds => exact holdsFitting_of_within_members holds hd
    | interface _ _ holds => exact holdsFitting_of_within_members holds hd
    | function _ holds => exact holdsFitting_of_within_parameters holds hd
    | _ => exact absurd hd (not_within_nil d)

end Declaration

/-! What a text declares. -/

namespace Source
open Declaration

theorem forall_of_forall₂ {α β : Type} {R : α → β → Prop} {P : β → Prop} {as : List α}
    {bs : List β} (hR : ∀ a b, R a b → P b) (h : List.Forall₂ R as bs) : ∀ b ∈ bs, P b := by
  induction h with
  | nil => exact fun b hb => nomatch hb
  | cons hab _ ih => exact List.forall_mem_cons.mpr ⟨hR _ _ hab, ih⟩

theorem Parameter.Declares.isParameter {p : Parameter} {d : Declaration} (h : p.Declares d) :
    IsParameter d := by
  cases h <;> exact .parameter _ _

theorem Signature.Declares.isMember {m : Signature} {d : Declaration} (h : m.Declares d) :
    IsMember d := by
  cases h with
  | property => exact .property _ _
  | method _ hps => exact .method _ _ (forall_of_forall₂ (fun _ _ => (·.isParameter)) hps)
  | getter => exact .method _ _ (by simp)
  | setter _ hp => exact .method _ _ (by simpa using hp.isParameter)

theorem ClassMember.Declares.isMember {m : ClassMember} {d : Declaration} (h : m.Declares d) :
    IsMember d := by
  cases h with
  | constructor _ hps => exact .method _ _ (forall_of_forall₂ (fun _ _ => (·.isParameter)) hps)
  | method _ hps => exact .method _ _ (forall_of_forall₂ (fun _ _ => (·.isParameter)) hps)
  | field => exact .property _ _

theorem Variable.Declares.isTopLevel {v : Variable} {d : Declaration} (h : v.Declares d) :
    IsTopLevel d := by
  cases h
  exact .property _ _

theorem Item.Declares.isTopLevel {i : Item} {ds : List Declaration} (h : i.Declares ds) :
    ∀ d ∈ ds, IsTopLevel d := by
  cases h with
  | enumeration => simpa using IsTopLevel.enumeration _ _
  | classType hms =>
    simpa using IsTopLevel.classType _ none (forall_of_forall₂ (fun _ _ => (·.isMember)) hms)
  | derivedClass _ hms =>
    simpa using IsTopLevel.classType _ (some _) (forall_of_forall₂ (fun _ _ => (·.isMember)) hms)
  | interface _ hms =>
    simpa using IsTopLevel.interface _ _ (forall_of_forall₂ (fun _ _ => (·.isMember)) hms)
  | function hps =>
    simpa using IsTopLevel.function _ (forall_of_forall₂ (fun _ _ => (·.isParameter)) hps)
  | typeAlias => simpa using IsTopLevel.typeAlias _ _
  | variableList hvs => exact forall_of_forall₂ (fun _ _ => (·.isTopLevel)) hvs

end Source

theorem isTopLevel_of_structureOf {items : List Source.Item} {s : Structure}
    (h : structureOf items = .ok s) : ∀ d ∈ s, d.IsTopLevel := by
  induction items generalizing s with
  | nil =>
    cases h
    exact fun d hd => nomatch hd
  | cons i is ih =>
    obtain ⟨ds, s', hds, hs', rfl⟩ := structureOf_cons.mp h
    have hi : ∀ d ∈ ds, d.IsTopLevel := by
      obtain ⟨-, rfl⟩ | hd := Source.Item.declarations_eq_ok.mp hds
      · exact fun d hd => nomatch hd
      · exact hd.isTopLevel
    exact List.forall_mem_append.mpr ⟨hi, ih hs'⟩

theorem isTopLevel_of_extract {source : String} {s : Structure} (h : extract source = .ok s) :
    ∀ d ∈ s, d.IsTopLevel := by
  simp only [extract, Except.bind_eq_ok, Except.mapError_eq_ok] at h
  obtain ⟨items, -, hs⟩ := h
  exact isTopLevel_of_structureOf hs

/-- No text declares a parameter or a result at the top, and at any depth a declaration holds only
what fits its kind. -/
theorem holdsFitting_of_extract {source : String} {s : Structure} (h : extract source = .ok s) :
    (∀ d ∈ s, d.kind ≠ .parameter ∧ (d.kind = .method → d.result? = none)) ∧
      ∀ d : Declaration, d.Within s → d.HoldsFitting :=
  ⟨fun d hd => (isTopLevel_of_extract h d hd).kind_ne,
    fun _ hd => Declaration.holdsFitting_of_within (isTopLevel_of_extract h) hd⟩

/-- A text with a declaration of every kind. -/
def everyKind : String :=
  "enum E { A } class C { constructor(p: P); get x(): A } interface I { m(...a: A[]): B; y?: Y }" ++
    " declare function f(a: A): R; type T = A; declare const v: V; export default function () : R"

theorem holdsFitting_of_extract_everyKind :
    ∃ s, extract everyKind = .ok s ∧
      (s.map (·.kind) = [.enumeration, .classType, .interface, .method, .typeAlias, .property,
          .method] ∧ (s.map fun d => d.nested.length) = [0, 2, 2, 1, 0, 0, 0]) ∧
      (∀ d ∈ s, d.kind ≠ .parameter ∧ (d.kind = .method → d.result? = none)) ∧
      ∀ d : Declaration, d.Within s → d.HoldsFitting := by
  have hkinds : (extract everyKind).toOption.map (fun s => (s.map (·.kind),
      s.map fun d => d.nested.length)) = some ([.enumeration, .classType, .interface, .method,
        .typeAlias, .property, .method], [0, 2, 2, 1, 0, 0, 0]) := by decide +kernel
  obtain ⟨s, hs, heq⟩ := Option.map_eq_some_iff.mp hkinds
  have hextract : extract everyKind = .ok s := by
    generalize extract everyKind = x at hs
    cases x with
    | error fault => cases hs
    | ok s' =>
      cases hs
      rfl
  exact ⟨s, hextract, Prod.mk.inj heq, holdsFitting_of_extract hextract⟩

end ApiSurface
