import ApiSurface.Proofs.JsonGrammar
import ApiSurface.Proofs.StoredChanges

/-! Stored documents that say the same in other words. The fields of a declaration may stand in any
order, other fields may stand among them, a field may be left out that holds its default, and blanks
may stand between any two tokens. No field and no tag may come twice. -/
namespace ApiSurface

/-! Fields and their defaults. -/

namespace Kind

/-- The fields that a declaration has next to its tag, in the order of their places. -/
def fields : Kind → List String
  | enumeration => ["name", "values"]
  | classType => ["name", "properties", "superClass"]
  | interface => ["name", "properties", "extends"]
  | method => ["name", "parameters", "result"]
  | parameter => ["name", "parameterType"]
  | property | typeAlias => ["name", "propertyType"]

/-- The field that holds other declarations. -/
def nestedField? : Kind → Option String
  | classType | interface => some "properties"
  | method => some "parameters"
  | _ => none

theorem ne_type_of_mem_fields {kind : Kind} {name : String} (h : name ∈ kind.fields) :
    name ≠ "type" := by
  rintro rfl
  revert h
  cases kind <;> decide

theorem fields_one_of_nestedField? {kind : Kind} {name : String}
    (h : kind.nestedField? = some name) : kind.fields[1]? = some name := by
  cases kind <;> cases h <;> rfl

theorem mem_fields_of_nestedField? {kind : Kind} {name : String}
    (h : kind.nestedField? = some name) : name ∈ kind.fields :=
  List.mem_of_getElem? (fields_one_of_nestedField? h)

end Kind

namespace Record

/-- What a field stands for that is absent. -/
def default? (name : String) : Option Json :=
  if name ∈ ["values", "properties", "parameters", "extends"] then some (.array [])
  else if name ∈ ["superClass", "result"] then some .null
  else none

/-- A field, or its default if it is absent. -/
def filled (r : Record) (name : String) (place : Nat) : Option (Option Json) :=
  (r.field? name place).map (·.or (default? name))

variable {r r' : Record} {name : String} {place : Nat}

section Filled

variable (h : r'.filled name place = r.filled name place)
include h

/-- Whoever takes an absent field for its default reads the same in both records. -/
theorem bind_field?_congr {α : Type} {f : Option Json → Option α}
    (hdefault : f (default? name) = f none) :
    (r'.field? name place).bind f = (r.field? name place).bind f := by
  have heq (r : Record) : (r.field? name place).bind f = (r.filled name place).bind f := by
    unfold filled
    rcases r.field? name place with _ | _ | v
    · rfl
    · exact hdefault.symm
    · rfl
  rw [heq, heq, h]

theorem text?_congr (hdefault : default? name = none) :
    r'.text? name place = r.text? name place :=
  bind_field?_congr h (hdefault ▸ rfl)

theorem texts?_congr (hdefault : default? name = some (.array [])) :
    r'.texts? name place = r.texts? name place :=
  bind_field?_congr h (hdefault ▸ rfl)

theorem items?_congr (hdefault : default? name = some (.array [])) :
    r'.items? name place = r.items? name place :=
  bind_field?_congr h (hdefault ▸ rfl)

theorem optionalText?_congr (hdefault : default? name = some .null) :
    r'.optionalText? name place = r.optionalText? name place :=
  bind_field?_congr h (hdefault ▸ rfl)

end Filled

/-- Two records have the same to say about a declaration of some kind, but for one field that does
not matter. -/
structure Alike (kind : Kind) (except : Option String) (r r' : Record) : Prop where
  fits : ∀ n, r'.fits n = r.fits n
  filled : ∀ {name place}, kind.fields[place]? = some name → some name ≠ except →
    r'.filled name place = r.filled name place

theorem Alike.except {kind : Kind} (h : Alike kind none r r')
    (except : Option String) : Alike kind except r r' :=
  ⟨h.fits, fun hfield _ => h.filled hfield nofun⟩

end Record

namespace Declaration
open Record

theorem nestedItems?_eq (kind : Kind) (r : Record) :
    nestedItems? kind r = match kind.nestedField? with
      | some name => r.items? name 1
      | none => some [] := by
  cases kind <;> rfl

theorem nestedItems?_of_alike {kind : Kind} {r r' : Record} (h : Alike kind none r r') :
    nestedItems? kind r' = nestedItems? kind r := by
  cases kind with
  | classType | interface | method => exact items?_congr (h.filled rfl nofun) rfl
  | _ => rfl

/-- The field of what is nested in a declaration does not matter when it is put together. -/
theorem assemble?_of_alike {kind : Kind} {r r' : Record} (h : Alike kind kind.nestedField? r r')
    (nested : List Declaration) : assemble? kind r' nested = assemble? kind r nested := by
  have hname : r'.text? "name" 0 = r.text? "name" 0 := by
    refine text?_congr (h.filled ?_ ?_) rfl
    · cases kind <;> rfl
    · cases kind <;> decide
  simp only [assemble?, hname]
  cases kind with
  | enumeration =>
    have htexts : r'.texts? "values" 1 = r.texts? "values" 1 :=
      texts?_congr (h.filled rfl (by decide)) rfl
    simp only [h.fits, htexts]
  | interface =>
    have htexts : r'.texts? "extends" 2 = r.texts? "extends" 2 :=
      texts?_congr (h.filled rfl (by decide)) rfl
    simp only [h.fits, htexts]
  | classType =>
    have htext : r'.optionalText? "superClass" 2 = r.optionalText? "superClass" 2 :=
      optionalText?_congr (h.filled rfl (by decide)) rfl
    simp only [h.fits, htext]
  | method =>
    have htext : r'.optionalText? "result" 2 = r.optionalText? "result" 2 :=
      optionalText?_congr (h.filled rfl (by decide)) rfl
    simp only [h.fits, htext]
  | property | typeAlias =>
    have htext : r'.text? "propertyType" 1 = r.text? "propertyType" 1 :=
      text?_congr (h.filled rfl (by decide)) rfl
    simp only [h.fits, htext]
  | parameter =>
    have htext : r'.text? "parameterType" 1 = r.text? "parameterType" 1 :=
      text?_congr (h.filled rfl (by decide)) rfl
    simp only [h.fits, htext]

/-! Every field of a declaration that is read is unambiguous. -/

theorem isSome_field?_of_read {kind : Kind} {r : Record} {items : List Json}
    {nested : List Declaration} {d : Declaration} (hitems : nestedItems? kind r = some items)
    (hd : assemble? kind r nested = some d) {name : String} {place : Nat}
    (hfield : kind.fields[place]? = some name) : (r.field? name place).isSome := by
  have hsome {α : Type} {f : Option Json → Option α} {a : α} {name : String} {place : Nat}
      (h : (r.field? name place).bind f = some a) : (r.field? name place).isSome := by
    obtain ⟨v?, hv, -⟩ := Option.bind_eq_some_iff.mp h
    rw [hv]
    rfl
  simp only [assemble?, Option.bind_eq_bind, Option.bind_eq_some_iff] at hd
  obtain ⟨s, hname, hd⟩ := hd
  have hread {α : Type} {o : Option α} {n : Nat} {f : α → Declaration}
      (h : (if r.fits n then o.bind fun a => some (f a) else none) = some d) : ∃ a, o = some a := by
    split_ifs at h
    obtain ⟨a, ha, -⟩ := Option.bind_eq_some_iff.mp h
    exact ⟨a, ha⟩
  rcases place with _ | _ | _ | place
  · obtain rfl : "name" = name := by cases kind <;> exact Option.some.inj hfield
    exact hsome hname
  · cases kind with
    | classType | interface | method =>
      cases hfield
      exact hsome hitems
    | _ =>
      cases hfield
      obtain ⟨a, ha⟩ := hread hd
      exact hsome ha
  · cases kind with
    | classType | interface | method =>
      cases hfield
      obtain ⟨a, ha⟩ := hread hd
      exact hsome ha
    | _ => cases hfield
  · cases kind <;> cases hfield

/-! One declaration. -/

/-- The kind of the declaration that a JSON value stands for. -/
def kindOf? (v : Json) : Option Kind := v.record?.bind fun r => kindOfTag? true r.1

/-- One change to the JSON form of a declaration, or to what is nested in it, that leaves what it
says. The form may nest as deep as there is room. -/
inductive Restated : Nat → Json → Json → Prop
  | permuted {room : Nat} {fs fs' : List (String × Json)} : fs.Perm fs' →
      Restated room (.object fs) (.object fs')
  | added {room : Nat} {fs : List (String × Json)} {name : String} {v : Json} {kind : Kind} :
      kindOf? (.object fs) = some kind → name ∉ "type" :: kind.fields → v.depth < room →
      Restated room (.object fs) (.object ((name, v) :: fs))
  | dropped {room : Nat} {fs : List (String × Json)} {name : String} {v : Json} {kind : Kind} :
      kindOf? (.object fs) = some kind → name ∈ kind.fields → default? name = some v →
      Restated room (.object ((name, v) :: fs)) (.object fs)
  | nested {room : Nat} {fs : List (String × Json)} {name : String} {vs ws : List Json}
      {v v' : Json} {kind : Kind} : kindOf? (.object fs) = some kind →
      kind.nestedField? = some name → Restated room v v' →
      Restated (room + 2) (.object ((name, .array (vs ++ v :: ws)) :: fs))
        (.object ((name, .array (vs ++ v' :: ws)) :: fs))
  | placed {room : Nat} {tag name : Json} {vs ws rest : List Json} {v v' : Json} {kind : Kind} :
      kindOfTag? true tag = some kind → kind.nestedField?.isSome → Restated room v v' →
      Restated (room + 2) (.array (tag :: name :: .array (vs ++ v :: ws) :: rest))
        (.array (tag :: name :: .array (vs ++ v' :: ws) :: rest))

/-- The JSON form of a declaration in which, or in something nested in it, the tag or a field comes
twice. -/
inductive Repeats : Json → Prop
  | tag {fs : List (String × Json)} : 1 < (fs.map Prod.fst).count "type" → Repeats (.object fs)
  | field {fs : List (String × Json)} {name : String} {kind : Kind} :
      kindOf? (.object fs) = some kind → name ∈ kind.fields →
      1 < (fs.map Prod.fst).count name → Repeats (.object fs)
  | nested {fs : List (String × Json)} {name : String} {vs : List Json} {v : Json} {kind : Kind} :
      kindOf? (.object fs) = some kind → kind.nestedField? = some name →
      (name, .array vs) ∈ fs → v ∈ vs → Repeats v → Repeats (.object fs)
  | placed {tag name : Json} {vs rest : List Json} {v : Json} {kind : Kind} :
      kindOfTag? true tag = some kind → kind.nestedField?.isSome → v ∈ vs → Repeats v →
      Repeats (.array (tag :: name :: .array vs :: rest))

theorem ofJsonWithin?_eq_some_iff {fuel : Nat} {inner : Bool} {v : Json} {d : Declaration} :
    ofJsonWithin? (fuel + 1) inner v = some d ↔ ∃ tag r kind items nested,
      v.record? = some (tag, r) ∧ kindOfTag? inner tag = some kind ∧
      nestedItems? kind r = some items ∧ items.mapM (ofJsonWithin? fuel true) = some nested ∧
      assemble? kind r nested = some d := by
  simp [ofJsonWithin?, Option.bind_eq_some_iff]

theorem kindOfTag?_inner {inner : Bool} {tag : Json} {kind : Kind}
    (h : kindOfTag? inner tag = some kind) : kindOfTag? true tag = some kind := by
  cases inner with
  | true => exact h
  | false =>
    cases tag with
    | string s => exact h
    | _ => cases h

theorem record?_object_eq_some_iff {fs : List (String × Json)} {tag : Json} {r : Record} :
    (Json.object fs).record? = some (tag, r) ↔
      Json.fieldsNamed "type" fs = [tag] ∧ r = .named (fs.filter (·.1 ≠ "type")) := by
  simp only [Json.record?]
  constructor
  · intro h
    split at h
    · next t ht =>
      cases h
      exact ⟨ht, rfl⟩
    · cases h
  · rintro ⟨htag, rfl⟩
    rw [htag]

theorem field?_tagless (fs : List (String × Json)) {name : String} (h : name ≠ "type")
    (place : Nat) : (Record.named (fs.filter (·.1 ≠ "type"))).field? name place =
      (Record.named fs).field? name place := by
  rw [Record.field?_filter (· ≠ "type"), if_pos (decide_eq_true h)]

theorem kindOf?_object_eq_some_iff {fs : List (String × Json)} {kind : Kind} :
    kindOf? (.object fs) = some kind ↔
      ∃ tag, Json.fieldsNamed "type" fs = [tag] ∧ kindOfTag? true tag = some kind := by
  simp only [kindOf?, Option.bind_eq_some_iff, Prod.exists, record?_object_eq_some_iff]
  constructor
  · rintro ⟨tag, r, ⟨htag, -⟩, hkind⟩
    exact ⟨tag, htag, hkind⟩
  · rintro ⟨tag, htag, hkind⟩
    exact ⟨tag, _, ⟨htag, rfl⟩, hkind⟩

theorem fieldsNamed_cons_self (name : String) (v : Json) (fs : List (String × Json)) :
    Json.fieldsNamed name ((name, v) :: fs) = v :: Json.fieldsNamed name fs := by
  simp [Json.fieldsNamed]

theorem fieldsNamed_cons_of_ne {name name' : String} (h : name' ≠ name) (v : Json)
    (fs : List (String × Json)) :
    Json.fieldsNamed name ((name', v) :: fs) = Json.fieldsNamed name fs := by
  simp [Json.fieldsNamed, h]

theorem length_fieldsNamed (name : String) (fs : List (String × Json)) :
    (Json.fieldsNamed name fs).length = (fs.map Prod.fst).count name := by
  rw [Json.fieldsNamed, List.length_map, ← List.countP_eq_length_filter, List.count,
    List.countP_map]
  congr 1

theorem isSome_field?_named_iff {name : String} {fs : List (String × Json)} {place : Nat} :
    ((Record.named fs).field? name place).isSome ↔ (fs.map Prod.fst).count name ≤ 1 := by
  rw [← length_fieldsNamed]
  simp only [field?]
  rcases Json.fieldsNamed name fs with _ | ⟨v, _ | ⟨w, vs⟩⟩ <;> simp

/-- No field of a declaration that is read comes twice. -/
theorem count_le_one_of_ofJsonWithin? {fuel : Nat} {inner : Bool} {fs : List (String × Json)}
    {d : Declaration} (h : ofJsonWithin? fuel inner (.object fs) = some d) {kind : Kind}
    (hkind : kindOf? (.object fs) = some kind) {name : String} (hname : name ∈ kind.fields) :
    (fs.map Prod.fst).count name ≤ 1 := by
  obtain _ | fuel := fuel
  · cases h
  obtain ⟨tag, r, kind', items, nested, hr, htag, hitems, -, hd⟩ := ofJsonWithin?_eq_some_iff.mp h
  obtain ⟨htype, rfl⟩ := record?_object_eq_some_iff.mp hr
  obtain rfl : kind' = kind := by
    obtain ⟨tag', htype', htag'⟩ := kindOf?_object_eq_some_iff.mp hkind
    rw [htype] at htype'
    cases htype'
    exact Option.some.inj ((kindOfTag?_inner htag).symm.trans htag')
  obtain ⟨place, hplace⟩ := List.mem_iff_getElem?.mp hname
  have hsome := isSome_field?_of_read hitems hd hplace
  rw [field?_tagless fs (Kind.ne_type_of_mem_fields hname)] at hsome
  exact isSome_field?_named_iff.mp hsome

theorem mapM_replaced {f : Json → Option Declaration} {v v' : Json}
    (h : ∀ d, f v = some d → f v' = some d) {vs ws : List Json} {ds : List Declaration}
    (hds : (vs ++ v :: ws).mapM f = some ds) : (vs ++ v' :: ws).mapM f = some ds := by
  simp only [List.mapM_append, List.mapM_cons, Option.bind_eq_bind, Option.bind_eq_some_iff]
    at hds ⊢
  obtain ⟨ds₁, hds₁, ds₂, ⟨d, hd, hds₂⟩, hds⟩ := hds
  exact ⟨ds₁, hds₁, ds₂, ⟨d, h d hd, hds₂⟩, hds⟩

theorem alike_tagless {kind : Kind} {except : Option String} {fs fs' : List (String × Json)}
    (h : ∀ name ∈ kind.fields, some name ≠ except → ∀ place,
      (Record.named fs').filled name place = (Record.named fs).filled name place) :
    Alike kind except (.named (fs.filter (·.1 ≠ "type"))) (.named (fs'.filter (·.1 ≠ "type"))) := by
  refine ⟨fun _ => rfl, fun {name place} hfield hexcept => ?_⟩
  have hname : name ∈ kind.fields := List.mem_of_getElem? hfield
  have hne := Kind.ne_type_of_mem_fields hname
  have hfilled := h name hname hexcept place
  simp only [filled] at hfilled ⊢
  rw [field?_tagless _ hne, field?_tagless _ hne, hfilled]

/-- A record with the tag of another one is read like it if both have the same to say, and what is
nested in the one is read like what is nested in the other. -/
theorem ofJsonWithin?_of_alike {fuel : Nat} {inner : Bool} {v v' tag : Json} {r r' : Record}
    {d : Declaration} (h : ofJsonWithin? fuel inner v = some d) (hr : v.record? = some (tag, r))
    (hr' : v'.record? = some (tag, r'))
    (halike : ∀ kind, kindOfTag? true tag = some kind → Alike kind kind.nestedField? r r')
    (hnested : ∀ kind, kindOfTag? true tag = some kind → ∀ items, nestedItems? kind r = some items →
      ∃ items', nestedItems? kind r' = some items' ∧ ∀ fuel nested,
        items.mapM (ofJsonWithin? fuel true) = some nested →
          items'.mapM (ofJsonWithin? fuel true) = some nested) :
    ofJsonWithin? fuel inner v' = some d := by
  obtain _ | fuel := fuel
  · cases h
  obtain ⟨tag', r₁, kind, items, nested, hr₁, hkind, hitems, hread, hd⟩ :=
    ofJsonWithin?_eq_some_iff.mp h
  rw [hr] at hr₁
  cases hr₁
  have hkind' := kindOfTag?_inner hkind
  obtain ⟨items', hitems', hmap⟩ := hnested kind hkind' items hitems
  refine ofJsonWithin?_eq_some_iff.mpr
    ⟨tag, r', kind, items', nested, hr', hkind, hitems', hmap fuel nested hread, ?_⟩
  rw [assemble?_of_alike (halike kind hkind'), hd]

/-- An object with the tag of another one and fields that say the same is read like it. -/
theorem ofJsonWithin?_of_filled {fuel : Nat} {inner : Bool} {fs fs' : List (String × Json)}
    {d : Declaration} (h : ofJsonWithin? fuel inner (.object fs) = some d)
    (htag : Json.fieldsNamed "type" fs' = Json.fieldsNamed "type" fs)
    (hfilled : ∀ kind, kindOf? (.object fs) = some kind → ∀ name ∈ kind.fields, ∀ place,
      (Record.named fs').filled name place = (Record.named fs).filled name place) :
    ofJsonWithin? fuel inner (.object fs') = some d := by
  obtain _ | n := fuel
  · cases h
  obtain ⟨tag, r, _, _, _, hr, -⟩ := ofJsonWithin?_eq_some_iff.mp h
  obtain ⟨htype, rfl⟩ := record?_object_eq_some_iff.mp hr
  have hr' := record?_object_eq_some_iff.mpr ⟨htag.trans htype, rfl⟩
  have halike (kind : Kind) (hkind : kindOfTag? true tag = some kind) : Alike kind none _ _ :=
    alike_tagless fun name hname _ =>
      hfilled kind (kindOf?_object_eq_some_iff.mpr ⟨tag, htype, hkind⟩) name hname
  refine ofJsonWithin?_of_alike h hr hr' (fun kind hkind => (halike kind hkind).except _)
    fun kind hkind items hitems => ⟨items, ?_, fun _ _ => id⟩
  rw [nestedItems?_of_alike (halike kind hkind), hitems]

theorem filled_cons_of_ne {name name' : String} (h : name' ≠ name) (v : Json)
    (fs : List (String × Json)) (place : Nat) :
    (Record.named ((name', v) :: fs)).filled name place =
      (Record.named fs).filled name place := by
  simp only [filled, field?, fieldsNamed_cons_of_ne h]

theorem filled_cons_default {name : String} {v : Json} (h : default? name = some v)
    {fs : List (String × Json)} (hfs : Json.fieldsNamed name fs = []) (place : Nat) :
    (Record.named ((name, v) :: fs)).filled name place =
      (Record.named fs).filled name place := by
  simp [filled, field?, fieldsNamed_cons_self, hfs, h]

/-- A field that stands in front of a declaration which is read stands in it nowhere else. -/
theorem fieldsNamed_eq_nil_of_ofJsonWithin? {fuel : Nat} {inner : Bool} {name : String} {v : Json}
    {fs : List (String × Json)} {d : Declaration} {kind : Kind}
    (h : ofJsonWithin? fuel inner (.object ((name, v) :: fs)) = some d)
    (hkind : kindOf? (.object fs) = some kind) (hname : name ∈ kind.fields) :
    Json.fieldsNamed name fs = [] := by
  have hne := Kind.ne_type_of_mem_fields hname
  have hkind' : kindOf? (.object ((name, v) :: fs)) = some kind := by
    rw [kindOf?_object_eq_some_iff] at hkind ⊢
    rwa [fieldsNamed_cons_of_ne hne]
  have hcount := count_le_one_of_ofJsonWithin? h hkind' hname
  rw [← length_fieldsNamed, fieldsNamed_cons_self, List.length_cons] at hcount
  exact List.length_eq_zero_iff.mp (by omega)

theorem nestedItems?_of_fieldsNamed {kind : Kind} {name : String} {fs : List (String × Json)}
    {vs : List Json} (hname : kind.nestedField? = some name)
    (hvs : Json.fieldsNamed name fs = [.array vs]) :
    nestedItems? kind (.named (fs.filter (·.1 ≠ "type"))) = some vs := by
  have hne := Kind.ne_type_of_mem_fields (Kind.mem_fields_of_nestedField? hname)
  have hfield : (Record.named (fs.filter (·.1 ≠ "type"))).field? name 1 =
      some (some (.array vs)) := by
    rw [field?_tagless _ hne, field?, hvs]
  rw [nestedItems?_eq, hname]
  simp only [items?, hfield]
  rfl

theorem nestedItems?_positional {kind : Kind} (hkind : kind.nestedField?.isSome) (name : Json)
    (vs rest : List Json) :
    nestedItems? kind (.positional (name :: .array vs :: rest)) = some vs := by
  obtain ⟨field, hfield⟩ := Option.isSome_iff_exists.mp hkind
  rw [nestedItems?_eq, hfield]
  rfl

/-- Whatever is changed in the form of a declaration, it is read as the same declaration. -/
theorem ofJsonWithin?_of_restated {room : Nat} {v v' : Json} (h : Restated room v v') :
    ∀ {fuel : Nat} {inner : Bool} {d : Declaration},
      ofJsonWithin? fuel inner v = some d → ofJsonWithin? fuel inner v' = some d := by
  induction h with
  | @permuted _ fs fs' order =>
    intro fuel inner d h
    obtain _ | n := fuel
    · cases h
    obtain ⟨tag, r, _, _, _, hr, -⟩ := ofJsonWithin?_eq_some_iff.mp h
    obtain ⟨htype, -⟩ := record?_object_eq_some_iff.mp hr
    refine ofJsonWithin?_of_filled h ?_ fun _ _ name _ place => ?_
    · have hperm := Json.fieldsNamed_perm order.symm "type"
      rw [htype] at hperm
      rw [List.perm_singleton.mp hperm, htype]
    · simp only [filled, Record.field?_of_perm order.symm]
  | @added _ fs name v kind hkind hname _ =>
    intro fuel inner d h
    obtain ⟨htype, hforeign⟩ := not_or.mp (List.mem_cons.not.mp hname)
    refine ofJsonWithin?_of_filled h (fieldsNamed_cons_of_ne htype v fs) ?_
    intro kind' hkind' name' hname' place
    obtain rfl := Option.some.inj (hkind.symm.trans hkind')
    have hne : name ≠ name' := by
      rintro rfl
      exact hforeign hname'
    exact filled_cons_of_ne hne v fs place
  | @dropped _ fs name v kind hkind hname hdefault =>
    intro fuel inner d h
    have hfs := fieldsNamed_eq_nil_of_ofJsonWithin? h hkind hname
    have htype := fieldsNamed_cons_of_ne (Kind.ne_type_of_mem_fields hname) v fs
    refine ofJsonWithin?_of_filled h htype.symm fun _ _ name' _ place => ?_
    by_cases hne : name = name'
    · subst hne
      exact (filled_cons_default hdefault hfs place).symm
    · exact (filled_cons_of_ne hne v fs place).symm
  | @nested _ fs name vs ws v v' kind hkind hname _ ih =>
    intro fuel inner d h
    have hmem := Kind.mem_fields_of_nestedField? hname
    have hne := Kind.ne_type_of_mem_fields hmem
    have hfs := fieldsNamed_eq_nil_of_ofJsonWithin? h hkind hmem
    obtain ⟨tag, htype, htag⟩ := kindOf?_object_eq_some_iff.mp hkind
    have hr (items : List Json) := record?_object_eq_some_iff.mpr
      ⟨(fieldsNamed_cons_of_ne hne (.array items) fs).trans htype, rfl⟩
    refine ofJsonWithin?_of_alike h (hr _) (hr _) (fun kind' hkind' => ?_)
      fun kind' hkind' items hitems => ?_
    · obtain rfl := Option.some.inj (htag.symm.trans hkind')
      refine alike_tagless fun name' _ hexcept place => ?_
      have hne' : name ≠ name' := by
        rintro rfl
        exact hexcept hname.symm
      rw [filled_cons_of_ne hne', filled_cons_of_ne hne']
    · obtain rfl := Option.some.inj (htag.symm.trans hkind')
      have hvs (xs : List Json) :
          Json.fieldsNamed name ((name, .array xs) :: fs) = [.array xs] := by
        rw [fieldsNamed_cons_self, hfs]
      rw [nestedItems?_of_fieldsNamed hname (hvs _)] at hitems
      cases hitems
      exact ⟨_, nestedItems?_of_fieldsNamed hname (hvs _), fun _ _ => mapM_replaced fun _ => ih⟩
  | @placed _ tag name vs ws rest v v' kind htag hkind _ ih =>
    intro fuel inner d h
    refine ofJsonWithin?_of_alike h rfl rfl (fun kind' hkind' => ?_)
      fun kind' hkind' items hitems => ?_
    · obtain rfl := Option.some.inj (htag.symm.trans hkind')
      refine ⟨fun _ => rfl, fun {name' place} hname' hexcept => ?_⟩
      -- only the field in the second place has changed
      obtain _ | _ | place := place
      · rfl
      · obtain ⟨field, hfield⟩ := Option.isSome_iff_exists.mp hkind
        rw [Kind.fields_one_of_nestedField? hfield] at hname'
        exact absurd (hname'.symm.trans hfield.symm) hexcept
      · rfl
    · obtain rfl := Option.some.inj (htag.symm.trans hkind')
      rw [nestedItems?_positional hkind] at hitems
      cases hitems
      exact ⟨_, nestedItems?_positional hkind name _ rest, fun _ _ => mapM_replaced fun _ => ih⟩

theorem depth_array_replaced {v v' : Json} {room : Nat} (h : v.depth ≤ room → v'.depth ≤ room)
    {vs ws : List Json} (hdepth : (Json.array (vs ++ v :: ws)).depth ≤ room + 1) :
    (Json.array (vs ++ v' :: ws)).depth ≤ room + 1 := by
  rw [Json.depth_array_le_succ_iff, List.forall_mem_append, List.forall_mem_cons] at hdepth ⊢
  obtain ⟨hvs, hv, hws⟩ := hdepth
  exact ⟨hvs, h hv, hws⟩

/-- A form that is changed nests no deeper than there is room if it did not before. -/
theorem depth_le_of_restated {room : Nat} {v v' : Json} (h : Restated room v v') :
    v.depth ≤ room → v'.depth ≤ room := by
  induction h with
  | @permuted room _ _ order =>
    intro hdepth
    obtain _ | room := room
    · exact absurd hdepth (Nat.not_succ_le_zero _)
    rw [Json.depth_object_le_succ_iff] at hdepth ⊢
    exact fun f hf => hdepth f (order.mem_iff.mpr hf)
  | @added room _ _ _ _ _ _ hv =>
    intro hdepth
    obtain _ | room := room
    · exact absurd hdepth (Nat.not_succ_le_zero _)
    rw [Json.depth_object_le_succ_iff] at hdepth ⊢
    exact List.forall_mem_cons.mpr ⟨Nat.le_of_lt_succ hv, hdepth⟩
  | @dropped room _ _ _ _ _ _ _ =>
    intro hdepth
    obtain _ | room := room
    · exact absurd hdepth (Nat.not_succ_le_zero _)
    rw [Json.depth_object_le_succ_iff] at hdepth ⊢
    exact (List.forall_mem_cons.mp hdepth).2
  | nested _ _ _ ih =>
    intro hdepth
    rw [Json.depth_object_le_succ_iff, List.forall_mem_cons] at hdepth ⊢
    exact ⟨depth_array_replaced ih hdepth.1, hdepth.2⟩
  | placed _ _ _ ih =>
    intro hdepth
    rw [Json.depth_array_le_succ_iff] at hdepth ⊢
    obtain ⟨htag, hrest⟩ := List.forall_mem_cons.mp hdepth
    obtain ⟨hname, hrest⟩ := List.forall_mem_cons.mp hrest
    obtain ⟨hitems, hrest⟩ := List.forall_mem_cons.mp hrest
    exact List.forall_mem_cons.mpr ⟨htag, List.forall_mem_cons.mpr ⟨hname,
      List.forall_mem_cons.mpr ⟨depth_array_replaced ih hitems, hrest⟩⟩⟩

theorem exists_of_mapM {f : Json → Option Declaration} {vs : List Json} {v : Json} (hv : v ∈ vs) :
    ∀ {ds : List Declaration}, vs.mapM f = some ds → ∃ d, f v = some d := by
  induction vs with
  | nil => cases hv
  | cons w vs ih =>
    intro ds h
    simp only [List.mapM_cons, Option.bind_eq_bind, Option.bind_eq_some_iff] at h
    obtain ⟨d, hd, ds', hds, -⟩ := h
    obtain rfl | hv := List.mem_cons.mp hv
    · exact ⟨d, hd⟩
    · exact ih hv hds

theorem fieldsNamed_eq_singleton {name : String} {v : Json} {fs : List (String × Json)}
    (hv : (name, v) ∈ fs) (hcount : (fs.map Prod.fst).count name ≤ 1) :
    Json.fieldsNamed name fs = [v] := by
  rw [← length_fieldsNamed] at hcount
  have hmem : v ∈ Json.fieldsNamed name fs := by
    simp only [Json.fieldsNamed, List.mem_map, List.mem_filter, decide_eq_true_eq]
    exact ⟨(name, v), ⟨hv, rfl⟩, rfl⟩
  obtain ⟨w, hw⟩ := List.length_eq_one_iff.mp
    (Nat.le_antisymm hcount (List.length_pos_of_mem hmem))
  rw [hw, List.mem_singleton] at hmem
  rw [hw, hmem]

/-- What is nested in a declaration that is read is read too. -/
theorem exists_of_nestedItems? {fuel : Nat} {inner : Bool} {v w tag : Json} {r : Record}
    {d : Declaration} {kind : Kind} {vs : List Json} (h : ofJsonWithin? fuel inner v = some d)
    (hr : v.record? = some (tag, r)) (hkind : kindOfTag? true tag = some kind)
    (hvs : nestedItems? kind r = some vs) (hw : w ∈ vs) :
    ∃ fuel d, ofJsonWithin? fuel true w = some d := by
  obtain _ | fuel := fuel
  · cases h
  obtain ⟨tag', r', kind', items, nested, hr', hkind', hitems, hnested, -⟩ :=
    ofJsonWithin?_eq_some_iff.mp h
  rw [hr] at hr'
  cases hr'
  obtain rfl := Option.some.inj (hkind.symm.trans (kindOfTag?_inner hkind'))
  rw [hvs] at hitems
  cases hitems
  exact ⟨fuel, exists_of_mapM hw hnested⟩

/-- Nothing is read in which the tag or a field comes twice. -/
theorem ofJsonWithin?_of_repeats {v : Json} (h : Repeats v) :
    ∀ {fuel : Nat} {inner : Bool} {d : Declaration}, ofJsonWithin? fuel inner v ≠ some d := by
  induction h with
  | @tag fs hcount =>
    intro fuel inner d h
    obtain _ | fuel := fuel
    · cases h
    obtain ⟨tag, r, _, _, _, hr, -⟩ := ofJsonWithin?_eq_some_iff.mp h
    obtain ⟨htype, -⟩ := record?_object_eq_some_iff.mp hr
    rw [← length_fieldsNamed, htype] at hcount
    exact absurd hcount (by simp)
  | @field fs name kind hkind hname hcount =>
    intro fuel inner d h
    exact absurd (count_le_one_of_ofJsonWithin? h hkind hname) (Nat.not_le.mpr hcount)
  | @nested fs name vs v kind hkind hname hfield hv _ ih =>
    intro fuel inner d h
    have hcount := count_le_one_of_ofJsonWithin? h hkind (Kind.mem_fields_of_nestedField? hname)
    have hvs := fieldsNamed_eq_singleton hfield hcount
    obtain ⟨tag, htype, htag⟩ := kindOf?_object_eq_some_iff.mp hkind
    obtain ⟨fuel', d', hread⟩ := exists_of_nestedItems? h
      (record?_object_eq_some_iff.mpr ⟨htype, rfl⟩) htag (nestedItems?_of_fieldsNamed hname hvs) hv
    exact ih hread
  | @placed tag name vs rest v kind htag hkind hv _ ih =>
    intro fuel inner d h
    obtain ⟨fuel', d', hread⟩ := exists_of_nestedItems? h rfl htag
      (nestedItems?_positional hkind name vs rest) hv
    exact ih hread

/-! Room to read. -/

theorem mapM_congr {f g : Json → Option Declaration} {vs : List Json}
    (h : ∀ v ∈ vs, f v = g v) : vs.mapM f = vs.mapM g := by
  induction vs with
  | nil => rfl
  | cons v vs ih =>
    obtain ⟨hv, hvs⟩ := List.forall_mem_cons.mp h
    rw [List.mapM_cons, List.mapM_cons, hv, ih hvs]

/-- More room than a value is deep makes no difference. -/
theorem ofJsonWithin?_of_depth_lt {fuel : Nat} : ∀ {fuel' : Nat} {inner : Bool} {v : Json},
    v.depth < fuel → v.depth < fuel' →
      ofJsonWithin? fuel inner v = ofJsonWithin? fuel' inner v := by
  induction fuel with
  | zero => exact fun h => absurd h (Nat.not_lt_zero _)
  | succ fuel ih =>
    intro fuel' inner v h h'
    obtain _ | fuel' := fuel'
    · exact absurd h' (Nat.not_lt_zero _)
    have hmap {tag : Json} {r : Record} (hr : v.record? = some (tag, r)) {kind : Kind}
        {items : List Json} (hitems : nestedItems? kind r = some items) :
        items.mapM (ofJsonWithin? fuel true) = items.mapM (ofJsonWithin? fuel' true) := by
      refine mapM_congr fun w hw => ?_
      obtain rfl | hdepth := itemsDepth_of_nestedItems? hr hitems
      · cases hw
      · have hle := depth_le_itemsDepth hw
        exact ih (by omega) (by omega)
    ext d
    simp only [ofJsonWithin?_eq_some_iff]
    constructor
    · rintro ⟨tag, r, kind, items, nested, hr, hkind, hitems, hnested, hd⟩
      exact ⟨tag, r, kind, items, nested, hr, hkind, hitems, hmap hr hitems ▸ hnested, hd⟩
    · rintro ⟨tag, r, kind, items, nested, hr, hkind, hitems, hnested, hd⟩
      exact ⟨tag, r, kind, items, nested, hr, hkind, hitems, hmap hr hitems ▸ hnested, hd⟩

theorem ofJson?_of_restated {room : Nat} {v v' : Json} (h : Restated room v v') {d : Declaration}
    (hd : ofJson? v = some d) : ofJson? v' = some d := by
  have hroom {w : Json} (hw : w.depth ≤ max v.depth v'.depth) :
      ofJson? w = ofJsonWithin? (max v.depth v'.depth + 1) false w :=
    ofJsonWithin?_of_depth_lt (Nat.lt_succ_self _) (Nat.lt_succ_of_le hw)
  rw [hroom (Nat.le_max_left _ _)] at hd
  rw [hroom (Nat.le_max_right _ _)]
  exact ofJsonWithin?_of_restated h hd

end Declaration

/-! Whole documents. -/

namespace Structure

/-- One change to a declaration of a stored structure that leaves what it says, with room for it in
the list of the declarations. -/
inductive Restated : Json → Json → Prop
  | item {vs ws : List Json} {v v' : Json} : Declaration.Restated (Json.maxDepth - 1) v v' →
      Restated (.array (vs ++ v :: ws)) (.array (vs ++ v' :: ws))

/-- A stored structure in which the tag or a field of a declaration comes twice. -/
inductive Repeats : Json → Prop
  | item {vs : List Json} {v : Json} : v ∈ vs → Declaration.Repeats v → Repeats (.array vs)

theorem ofJson?_of_restated {v v' : Json} (h : Restated v v') {s : Structure}
    (hs : ofJson? v = some s) : ofJson? v' = some s := by
  obtain ⟨h⟩ := h
  exact Declaration.mapM_replaced (fun _ => Declaration.ofJson?_of_restated h) hs

theorem depth_le_of_restated {v v' : Json} (h : Restated v v') (hdepth : v.depth ≤ Json.maxDepth) :
    v'.depth ≤ Json.maxDepth := by
  obtain ⟨h⟩ := h
  exact Declaration.depth_array_replaced (Declaration.depth_le_of_restated h) hdepth

/-- However often a stored structure is changed so, it is read as before, and there is room for
it. -/
theorem ofJson?_of_reflTransGen {v v' : Json} (h : Relation.ReflTransGen Restated v v')
    (hdepth : v.depth ≤ Json.maxDepth) {s : Structure} (hs : ofJson? v = some s) :
    v'.depth ≤ Json.maxDepth ∧ ofJson? v' = some s := by
  induction h with
  | refl => exact ⟨hdepth, hs⟩
  | tail _ hstep ih => exact ⟨depth_le_of_restated hstep ih.1, ofJson?_of_restated hstep ih.2⟩

theorem ofJson?_of_repeats {v : Json} (h : Repeats v) (s : Structure) : ofJson? v ≠ some s := by
  obtain ⟨hv, hrepeats⟩ := h
  intro hs
  obtain ⟨d, hd⟩ := Declaration.exists_of_mapM hv hs
  exact Declaration.ofJsonWithin?_of_repeats hrepeats hd

/-- A text is read as a structure exactly if it spells the form of one, with room for it. -/
theorem decode_eq_ok_iff {t : String} {s : Structure} :
    decode t = .ok s ↔ ∃ v : Json, v.Spells t ∧ v.depth ≤ Json.maxDepth ∧ ofJson? v = some s := by
  constructor
  · intro h
    unfold decode at h
    split at h
    · next v hv =>
      obtain ⟨hspells, hdepth⟩ := Json.parse_eq_ok_iff.mp hv
      refine ⟨v, hspells, hdepth, ?_⟩
      split at h
      · next s' hs =>
        cases h
        exact hs
      · cases h
    · cases h
  · rintro ⟨v, hspells, hdepth, hs⟩
    simp only [decode, Json.parse_eq_ok_iff.mpr ⟨hspells, hdepth⟩, hs]

/-- A text that holds a structure spells one JSON value. Every text that spells the value, with any
blanks, holds the structure, and so does every text that spells the value with its fields in another
order, with fields that no reader knows and that nest no deeper than there is room for, or without
fields that hold their default. No text holds a structure in which the tag or a field of a
declaration comes twice. -/
theorem decode_of_restated {t : String} {s : Structure} (h : decode t = .ok s) :
    ∃ v : Json, (∀ w : Json, w.Spells t ↔ w = v) ∧
      (∀ (v' : Json) (t' : String), Relation.ReflTransGen Restated v v' → v'.Spells t' →
        decode t' = .ok s) ∧
      ∀ (v' : Json) (t' : String), Repeats v' → v'.Spells t' →
        ∃ fault, decode t' = .error fault := by
  obtain ⟨v, hspells, hdepth, hs⟩ := decode_eq_ok_iff.mp h
  refine ⟨v, fun w => ⟨fun hw => hw.unique hspells, fun hw => hw ▸ hspells⟩, ?_, ?_⟩
  · intro v' t' hrestated hspells'
    obtain ⟨hdepth', hs'⟩ := ofJson?_of_reflTransGen hrestated hdepth hs
    exact decode_eq_ok_iff.mpr ⟨v', hspells', hdepth', hs'⟩
  · intro v' t' hrepeats hspells'
    cases hread : decode t' with
    | error fault => exact ⟨fault, rfl⟩
    | ok s' =>
      obtain ⟨w, hw, -, hs'⟩ := decode_eq_ok_iff.mp hread
      obtain rfl := hw.unique hspells'
      exact absurd hs' (ofJson?_of_repeats hrepeats s')

/-- A class with one method, tags last. -/
def tagsLast : String :=
  "[\x7b\"properties\":[\x7b\"parameters\":[],\"name\":\"m\",\"type\":\"method\"\x7d]," ++
    "\"name\":\"A\",\"type\":\"class\"\x7d]"

/-- The same class with its tag in front, a field that no class has, more blanks, and without the
empty list of parameters. -/
def tagFirst : String :=
  "[ \x7b\"type\": \"class\", \"name\" :\"\\u0041\", \"properties\": [\x7b\"name\":\"m\"," ++
    "\"type\":\"method\"\x7d],\n\"since\": [null]\x7d ]\n"

/-- An enumeration with two names. -/
def namedTwice : String :=
  "[\x7b\"type\":\"enum\",\"name\":\"E\",\"values\":[],\"name\":\"E\"\x7d]"

theorem decode_of_restated_tagsLast :
    let s := [Declaration.classType "A" [.method "m" [] none] none]
    decode tagsLast = .ok s ∧ decode tagFirst = .ok s ∧
      ∃ fault, decode namedTwice = .error fault := by
  intro s
  have hlast : decode tagsLast = .ok s := by cbv
  let method (fs : List (String × Json)) : Json :=
    .object (fs ++ [("name", .string "m"), ("type", .string "method")])
  let v : Json := .array [.object [("properties", .array [method [("parameters", .array [])]]),
    ("name", .string "A"), ("type", .string "class")]]
  let v' : Json := .array [.object [("type", .string "class"), ("name", .string "A"),
    ("properties", .array [method []]), ("since", .array [.null])]]
  let w : Json := .array [.object [("type", .string "enum"), ("name", .string "E"),
    ("values", .array []), ("name", .string "E")]]
  obtain ⟨hv, -⟩ := Json.parse_eq_ok_iff.mp (show Json.parse tagsLast = .ok v by cbv)
  obtain ⟨hv', -⟩ := Json.parse_eq_ok_iff.mp (show Json.parse tagFirst = .ok v' by cbv)
  obtain ⟨hw, -⟩ := Json.parse_eq_ok_iff.mp (show Json.parse namedTwice = .ok w by cbv)
  have hrestated : Relation.ReflTransGen Restated v v' := by
    let named : List (String × Json) :=
      [("properties", .array [method []]), ("name", .string "A"), ("type", .string "class")]
    have hdropped : Restated v (.array [.object named]) := by
      have hmethod : Declaration.Restated 124 (method [("parameters", .array [])]) (method []) :=
        @Declaration.Restated.dropped _ _ _ _ .method rfl (by decide) rfl
      exact @Restated.item [] [] _ _
        (@Declaration.Restated.nested _ _ _ [] [] _ _ .classType rfl rfl hmethod)
    have hadded : Restated (.array [.object named])
        (.array [.object (("since", .array [.null]) :: named)]) :=
      @Restated.item [] [] _ _
        (@Declaration.Restated.added _ named "since" (.array [.null]) .classType rfl (by decide)
          (by decide))
    have hpermuted : Restated (.array [.object (("since", .array [.null]) :: named)]) v' :=
      @Restated.item [] [] _ _ (.permuted (List.reverse_perm _).symm)
    exact ((Relation.ReflTransGen.single hdropped).tail hadded).tail hpermuted
  have hrepeats : Repeats w := by
    refine .item List.mem_cons_self ?_
    exact @Declaration.Repeats.field _ "name" .enumeration rfl (by decide) (by decide)
  obtain ⟨u, hu, hsame, hfail⟩ := decode_of_restated hlast
  obtain rfl : v = u := (hu v).mp hv
  exact ⟨hlast, hsame v' tagFirst hrestated hv', hfail w namedTwice hrepeats hw⟩

end Structure
end ApiSurface
