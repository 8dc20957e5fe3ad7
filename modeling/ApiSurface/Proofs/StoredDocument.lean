import ApiSurface.Comparison
import ApiSurface.Declaration.Decoding
import ApiSurface.Proofs.JsonText

/-! Stored documents. A structure is read back from what is written for it as long as its
declarations nest no more than sixty-three levels deep, and no text holds a structure that nests
deeper. -/
namespace ApiSurface

namespace Declaration

mutual

/-- How many declarations stand inside one another at the deepest place, this one included. -/
def levels : Declaration → Nat
  | classType _ ds _ | interface _ ds _ | method _ ds _ => listLevels ds + 1
  | _ => 1

def listLevels : List Declaration → Nat
  | [] => 0
  | d :: ds => max (levels d) (listLevels ds)

end

theorem mapM_string? (vs : List String) : (vs.map Json.string).mapM Record.string? = some vs := by
  induction vs with
  | nil => rfl
  | cons v vs ih =>
    rw [List.map_cons, List.mapM_cons, ih]
    rfl

/-- A tagged object is a record of the fields behind the tag. -/
theorem record?_tagged {fields : List (String × Json)} (h : ∀ f ∈ fields, f.1 ≠ "type")
    (tag : Json) : (Json.object (("type", tag) :: fields)).record? = some (tag, .named fields) := by
  have hn : fields.filter (·.1 = "type") = [] := List.filter_eq_nil_iff.2 (by simpa using h)
  have hf : fields.filter (·.1 ≠ "type") = fields := List.filter_eq_self.2 (by simpa using h)
  rw [Json.record?, Json.fieldsNamed, List.filter_cons_of_pos (by simp), hn,
    List.filter_cons_of_neg (by simp), hf]
  rfl

/-- A list of strings in a field is read back. -/
theorem texts?_strings {fields : List (String × Json)} {name : String} (place : Nat)
    {vs : List String} (h : Json.fieldsNamed name fields = [strings vs]) :
    (Record.named fields).texts? name place = some vs := by
  simp only [Record.texts?, Record.field?, h]
  exact mapM_string? vs

/-- A declaration is put together from its fields and what is nested in it. -/
theorem ofJsonWithin?_tagged (kind : Kind) {fields : List (String × Json)}
    (h : ∀ f ∈ fields, f.1 ≠ "type") {fuel : Nat} (inner : Bool) {items : List Json}
    (hi : nestedItems? kind (.named fields) = some items) {nested : List Declaration}
    (hn : items.mapM (ofJsonWithin? fuel true) = some nested) {d : Declaration}
    (hd : assemble? kind (.named fields) nested = some d) :
    ofJsonWithin? (fuel + 1) inner (.object (("type", .string kind.name) :: fields)) = some d := by
  have hk : kindOfTag? inner (.string kind.name) = some kind := Kind.ofName?_name kind
  simp [ofJsonWithin?, record?_tagged h, hk, hi, hn, hd]

mutual

/-- A declaration is read back from its JSON form. -/
theorem ofJsonWithin?_toJson (d : Declaration) (fuel : Nat) (inner : Bool) (h : d.levels ≤ fuel) :
    ofJsonWithin? fuel inner (toJson d) = some d := by
  obtain _ | fuel := fuel
  · cases d <;> simp [levels] at h
  match d with
  | enumeration n vs =>
    have hv : (Record.named [("name", .string n), ("values", strings vs)]).texts? "values" 1 =
      some vs := texts?_strings 1 rfl
    refine ofJsonWithin?_tagged .enumeration (by simp) inner rfl rfl ?_
    show (Record.texts? _ "values" 1).bind (fun vs => some (enumeration n vs)) = _
    rw [hv]
    rfl
  | classType n ms s =>
    have hm := mapM_ofJsonWithin?_listToJson ms fuel (by simpa [levels] using h)
    cases s <;> exact ofJsonWithin?_tagged .classType (by simp) inner rfl hm rfl
  | interface n ms [] =>
    have hm := mapM_ofJsonWithin?_listToJson ms fuel (by simpa [levels] using h)
    exact ofJsonWithin?_tagged .interface (by simp) inner rfl hm rfl
  | interface n ms (b :: bs) =>
    have hm := mapM_ofJsonWithin?_listToJson ms fuel (by simpa [levels] using h)
    refine ofJsonWithin?_tagged .interface (by simp) inner rfl hm ?_
    show (Record.texts? _ "extends" 2).bind (fun bs => some (interface n ms bs)) = _
    rw [@texts?_strings _ _ 2 (b :: bs) rfl]
    rfl
  | method n ps r =>
    have hm := mapM_ofJsonWithin?_listToJson ps fuel (by simpa [levels] using h)
    cases r <;> exact ofJsonWithin?_tagged .method (by simp) inner rfl hm rfl
  | property n t => exact ofJsonWithin?_tagged .property (by simp) inner rfl rfl rfl
  | parameter n t => exact ofJsonWithin?_tagged .parameter (by simp) inner rfl rfl rfl
  | typeAlias n t => exact ofJsonWithin?_tagged .typeAlias (by simp) inner rfl rfl rfl

theorem mapM_ofJsonWithin?_listToJson (ds : List Declaration) (fuel : Nat)
    (h : listLevels ds ≤ fuel) : (listToJson ds).mapM (ofJsonWithin? fuel true) = some ds := by
  match ds with
  | [] => rfl
  | d :: ds =>
    rw [listLevels] at h
    simp [listToJson, ofJsonWithin?_toJson d fuel true (by omega),
      mapM_ofJsonWithin?_listToJson ds fuel (by omega)]

end

/-! Depth of the JSON form. -/

mutual

theorem numberless_toJson (d : Declaration) : (toJson d).Numberless := by
  have strings (vs : List String) : Json.NumberlessItems (vs.map Json.string) := by
    induction vs with
    | nil => trivial
    | cons v vs ih => exact ⟨trivial, ih⟩
  match d with
  | enumeration n vs => exact ⟨trivial, trivial, strings vs, trivial⟩
  | classType n ms s =>
    have := numberless_listToJson ms
    cases s <;> simp [toJson, Json.Numberless, Json.NumberlessFields, this]
  | interface n ms bs =>
    have := numberless_listToJson ms
    cases bs with
    | nil => simp [toJson, Json.Numberless, Json.NumberlessFields, this]
    | cons b bs => exact ⟨trivial, trivial, this, strings (b :: bs), trivial⟩
  | method n ps r =>
    have := numberless_listToJson ps
    cases r <;> simp [toJson, Json.Numberless, Json.NumberlessFields, this]
  | property n t => exact ⟨trivial, trivial, trivial, trivial⟩
  | parameter n t => exact ⟨trivial, trivial, trivial, trivial⟩
  | typeAlias n t => exact ⟨trivial, trivial, trivial, trivial⟩

theorem numberless_listToJson (ds : List Declaration) : Json.NumberlessItems (listToJson ds) := by
  match ds with
  | [] => trivial
  | d :: ds => exact ⟨numberless_toJson d, numberless_listToJson ds⟩

end

theorem depth_strings (vs : List String) : (strings vs).depth = 1 := by
  have : Json.itemsDepth (vs.map Json.string) = 0 := by
    induction vs with
    | nil => rfl
    | cons v vs ih => simp [Json.itemsDepth, Json.depth, ih]
  simp [strings, Json.depth, this]

mutual

/-- Every level of declarations takes an object and at most one list. -/
theorem depth_toJson (d : Declaration) :
    d.levels ≤ (toJson d).depth ∧ (toJson d).depth ≤ 2 * d.levels := by
  match d with
  | enumeration n vs =>
    simp [toJson, levels, Json.depth, Json.fieldsDepth, depth_strings]
  | classType n ms s =>
    have := itemsDepth_listToJson ms
    cases s <;> simp [toJson, levels, Json.depth, Json.fieldsDepth] <;> omega
  | interface n ms [] =>
    have := itemsDepth_listToJson ms
    simp [toJson, levels, Json.depth, Json.fieldsDepth]
    omega
  | interface n ms (b :: bs) =>
    have := itemsDepth_listToJson ms
    simp [toJson, levels, Json.depth, Json.fieldsDepth, depth_strings]
    omega
  | method n ps r =>
    have := itemsDepth_listToJson ps
    cases r <;> simp [toJson, levels, Json.depth, Json.fieldsDepth] <;> omega
  | property n t => simp [toJson, levels, Json.depth, Json.fieldsDepth]
  | parameter n t => simp [toJson, levels, Json.depth, Json.fieldsDepth]
  | typeAlias n t => simp [toJson, levels, Json.depth, Json.fieldsDepth]

theorem itemsDepth_listToJson (ds : List Declaration) :
    listLevels ds ≤ Json.itemsDepth (listToJson ds) ∧
      Json.itemsDepth (listToJson ds) ≤ 2 * listLevels ds := by
  match ds with
  | [] => simp [listToJson, listLevels, Json.itemsDepth]
  | d :: ds =>
    have := depth_toJson d
    have := itemsDepth_listToJson ds
    simp only [listToJson, listLevels, Json.itemsDepth]
    omega

end

theorem ofJson?_toJson (d : Declaration) : ofJson? (toJson d) = some d :=
  ofJsonWithin?_toJson d _ false (Nat.le_succ_of_le (depth_toJson d).1)

/-! How deep declarations nest that were read. -/

theorem depth_le_fieldsDepth {fields : List (String × Json)} {f : String × Json}
    (h : f ∈ fields) : f.2.depth ≤ Json.fieldsDepth fields :=
  Json.fieldsDepth_le_iff.mp (Nat.le_refl _) f h

theorem depth_le_itemsDepth {items : List Json} {v : Json} (h : v ∈ items) :
    v.depth ≤ Json.itemsDepth items :=
  Json.itemsDepth_le_iff.mp (Nat.le_refl _) v h

/-- What a field of a record holds is less deep than the record. -/
theorem depth_field?_lt {v tag w : Json} {r : Record} (hr : v.record? = some (tag, r))
    {name : String} {place : Nat} (hf : r.field? name place = some (some w)) :
    w.depth < v.depth := by
  cases v with
  | object fields =>
    simp only [Json.record?] at hr
    split at hr
    · cases hr
      simp only [Record.field?] at hf
      split at hf
      · cases hf
      · next u hu =>
        cases hf
        have hm : w ∈ Json.fieldsNamed name (fields.filter (·.1 ≠ "type")) :=
          hu ▸ List.mem_singleton_self w
        obtain ⟨f, hf, rfl⟩ := List.mem_map.1 hm
        have hf := (List.mem_filter.1 (List.mem_filter.1 hf).1).1
        exact Nat.lt_succ_of_le (depth_le_fieldsDepth hf)
      · cases hf
    · cases hr
  | array items =>
    cases items with
    | nil => cases hr
    | cons t items =>
      cases hr
      have hm : w ∈ items := List.mem_of_getElem? (Option.some.inj hf)
      exact Nat.lt_succ_of_le (Nat.le_trans (depth_le_itemsDepth hm) (Nat.le_max_right _ _))
  | _ => cases hr

theorem record?_depth_pos {v tag : Json} {r : Record} (hr : v.record? = some (tag, r)) :
    0 < v.depth := by
  cases v with
  | object fields => exact Nat.succ_pos _
  | array items => exact Nat.succ_pos _
  | _ => cases hr

/-- A list in a record is two levels less deep than the record. -/
theorem itemsDepth_of_items? {v tag : Json} {r : Record} (hr : v.record? = some (tag, r))
    {name : String} {place : Nat} {items : List Json} (h : r.items? name place = some items) :
    items = [] ∨ Json.itemsDepth items + 2 ≤ v.depth := by
  simp only [Record.items?, Option.bind_eq_bind, Option.bind_eq_some_iff] at h
  obtain ⟨field, hf, h⟩ := h
  split at h
  · exact .inl (Option.some.inj h).symm
  · cases h
    exact .inr (depth_field?_lt hr hf)
  · cases h

theorem itemsDepth_of_nestedItems? {v tag : Json} {r : Record} (hr : v.record? = some (tag, r))
    {kind : Kind} {items : List Json} (h : nestedItems? kind r = some items) :
    items = [] ∨ Json.itemsDepth items + 2 ≤ v.depth := by
  cases kind with
  | classType => exact itemsDepth_of_items? hr h
  | interface => exact itemsDepth_of_items? hr h
  | method => exact itemsDepth_of_items? hr h
  | _ => exact .inl (Option.some.inj h).symm

/-- A declaration nests one level deeper than what is nested in it. -/
theorem levels_of_assemble? {kind : Kind} {r : Record} {nested : List Declaration}
    {d : Declaration} (h : assemble? kind r nested = some d) :
    d.levels ≤ listLevels nested + 1 := by
  simp only [assemble?, Option.bind_eq_bind, Option.bind_eq_some_iff] at h
  obtain ⟨name, -, h⟩ := h
  cases kind <;> simp only at h <;> split at h <;>
    first
    | cases h
    | (obtain ⟨_, -, h⟩ := Option.bind_eq_some_iff.1 h
       cases h
       simp [levels])

theorem listLevels_of_mapM {f : Json → Option Declaration}
    (hf : ∀ v d, f v = some d → 2 * d.levels ≤ v.depth + 1) {items : List Json} :
    ∀ {ds : List Declaration}, items.mapM f = some ds →
      2 * listLevels ds ≤ Json.itemsDepth items + 1 := by
  induction items with
  | nil =>
    intro ds h
    cases h
    simp [listLevels]
  | cons v items ih =>
    intro ds h
    simp only [List.mapM_cons, Option.bind_eq_bind, Option.bind_eq_some_iff] at h
    obtain ⟨d, hd, ds', hds, h⟩ := h
    cases h
    have := hf v d hd
    have := ih hds
    simp only [listLevels, Json.itemsDepth]
    omega

theorem levels_of_ofJsonWithin? {fuel : Nat} : ∀ {inner : Bool} {v : Json} {d : Declaration},
    ofJsonWithin? fuel inner v = some d → 2 * d.levels ≤ v.depth + 1 := by
  induction fuel with
  | zero => intro inner v d h; cases h
  | succ fuel ih =>
    intro inner v d h
    simp only [ofJsonWithin?, Option.bind_eq_bind, Option.bind_eq_some_iff] at h
    obtain ⟨⟨tag, r⟩, hr, kind, -, items, hi, nested, hn, h⟩ := h
    have hd := levels_of_assemble? h
    have hl := listLevels_of_mapM (fun _ _ => ih) hn
    have hv := record?_depth_pos hr
    obtain rfl | hi := itemsDepth_of_nestedItems? hr hi
    · obtain rfl : nested = [] := by simpa using hn.symm
      simp only [listLevels] at hd
      omega
    · omega

end Declaration

namespace Structure
open Declaration

/-- How many declarations stand inside one another at the deepest place. -/
def levels (s : Structure) : Nat := listLevels s

/-- The texts that may be written for a structure. -/
def writings (s : Structure) : List String := [(toJson s).compact, (toJson s).pretty]

theorem encode_mem_writings (s : Structure) : s.encode ∈ s.writings := by
  simp [writings, encode]

/-- No text holds declarations that nest deeper than this. -/
theorem levels_le_of_decode {t : String} {s : Structure} (h : decode t = .ok s) :
    s.levels ≤ 63 := by
  unfold decode at h
  split at h
  · next v hv =>
    have hd := (Json.parse_eq_ok_iff.mp hv).2
    cases v with
    | array items =>
      split at h
      · next s' hs =>
        cases h
        have hl := listLevels_of_mapM (fun _ _ => levels_of_ofJsonWithin?) hs
        simp only [Json.depth, Json.maxDepth] at hd
        unfold levels
        omega
      · cases h
    | _ => cases h
  · cases h

theorem ofJson?_toJson (s : Structure) : ofJson? (toJson s) = some s := by
  show (listToJson s).mapM Declaration.ofJson? = some s
  induction s with
  | nil => rfl
  | cons d s ih => simp [listToJson, Declaration.ofJson?_toJson, ih]

theorem decode_of_levels_le {s : Structure} (h : s.levels ≤ 63) :
    ∀ t ∈ s.writings, decode t = .ok s := by
  have hd : (toJson s).depth ≤ Json.maxDepth := by
    have := (itemsDepth_listToJson s).2
    simp only [toJson, Json.depth, Json.maxDepth]
    unfold levels at h
    omega
  obtain ⟨hc, hp⟩ := Json.parse_printed (v := toJson s) (numberless_listToJson s) hd
  intro t ht
  simp only [writings, List.mem_cons, List.not_mem_nil, or_false] at ht
  obtain rfl | rfl := ht
  · simp [decode, hc, ofJson?_toJson]
  · simp [decode, hp, ofJson?_toJson]

/-- The structures that some text holds. -/
theorem exists_decode_iff (s : Structure) : (∃ t, decode t = .ok s) ↔ s.levels ≤ 63 :=
  ⟨fun ⟨_, h⟩ => levels_le_of_decode h,
    fun h => ⟨s.encode, decode_of_levels_le h _ (encode_mem_writings s)⟩⟩

/-- What is written for a structure is read back as it, in either layout and for every structure
that a text holds or that is shallow enough; so stored structures compare like fresh ones. -/
theorem decode_writings {old new : Structure}
    (ho : (∃ t, decode t = .ok old) ∨ old.levels ≤ 63)
    (hn : (∃ t, decode t = .ok new) ∨ new.levels ≤ 63) :
    (∀ t ∈ old.writings, decode t = .ok old) ∧
      ∀ t ∈ old.writings, ∀ u ∈ new.writings, ∀ dedupe,
        (do return Comparison.compare dedupe (← decode t) (← decode u)) =
          (.ok (Comparison.compare dedupe old new) : Except DocumentFault (List Change)) := by
  have shallow {s : Structure} (h : (∃ t, decode t = .ok s) ∨ s.levels ≤ 63) : s.levels ≤ 63 :=
    h.elim (exists_decode_iff s).1 id
  have hold := decode_of_levels_le (shallow ho)
  have hnew := decode_of_levels_le (shallow hn)
  refine ⟨hold, fun t ht u hu dedupe => ?_⟩
  rw [hold t ht, hnew u hu]
  rfl

/-- Nested declarations, and strings that have to be escaped. -/
theorem decode_writings_nested :
    let nested := [classType "A" [method "[\"k\"]" [parameter "x\u2028" "\"\\\n\t\u0001é\""] none,
      interface "I" [classType "" [] (some "")] ["B.C"]] none, enumeration "E" []]
    (levels nested ≤ 63 ∧ levels sample ≤ 63) ∧
      (∀ t ∈ writings nested, decode t = .ok nested) ∧
      ∀ t ∈ writings nested, ∀ u ∈ writings sample, ∀ dedupe,
        (do return Comparison.compare dedupe (← decode t) (← decode u)) =
          (.ok (Comparison.compare dedupe nested sample) : Except DocumentFault (List Change)) :=
  ⟨⟨by decide, by decide⟩, decode_writings (.inr (by decide)) (.inr (by decide))⟩

end Structure
end ApiSurface
