import Mathlib
import ApiSurface.Proofs.StoredDocument
import ApiSurface.Report

/-! Stored changes. A report in JSON is read back as the changes it is on. A change is known by its
fields in any order, whatever other fields are among them, and a detail that is absent is empty. -/
namespace ApiSurface

/-! Records with their fields in any order. -/

section Rearranged

variable {fields own rest : List (String × Json)}

theorem Json.fieldsNamed_perm (h : rest.Perm own) (name : String) :
    (fieldsNamed name rest).Perm (fieldsNamed name own) :=
  (h.filter _).map _

theorem Json.fieldsNamed_append (name : String) (fs gs : List (String × Json)) :
    fieldsNamed name (fs ++ gs) = fieldsNamed name fs ++ fieldsNamed name gs := by
  simp [fieldsNamed]

theorem Json.fieldsNamed_of_forall_ne {name : String} (h : ∀ f ∈ own, f.1 ≠ name) :
    fieldsNamed name own = [] := by
  simpa [fieldsNamed] using h

/-- The tag may stand anywhere. -/
theorem Json.record?_of_perm {tag : Json} (h : fields.Perm (("type", tag) :: own))
    (hown : ∀ f ∈ own, f.1 ≠ "type") :
    ∃ rest, (Json.object fields).record? = some (tag, .named rest) ∧ rest.Perm own := by
  have htag : fieldsNamed "type" fields = [tag] := by
    refine List.perm_singleton.mp ((fieldsNamed_perm h "type").trans (.of_eq ?_))
    rw [← List.singleton_append, fieldsNamed_append, fieldsNamed_of_forall_ne hown]
    rfl
  refine ⟨fields.filter (·.1 ≠ "type"), ?_, ?_⟩
  · rw [record?, htag]
  · refine (h.filter (·.1 ≠ "type")).trans (.of_eq ?_)
    rw [List.filter_cons_of_neg (by simp)]
    exact List.filter_eq_self.mpr (by simpa using hown)

/-- A field is looked up by its name only. -/
theorem Record.field?_of_perm (h : rest.Perm own) (name : String) (place : Nat) :
    (Record.named rest).field? name place = (Record.named own).field? name place := by
  have hperm := Json.fieldsNamed_perm h name
  simp only [field?]
  rcases hown : Json.fieldsNamed name own with _ | ⟨v, _ | ⟨w, vs⟩⟩
  · rw [hown, List.perm_nil] at hperm
    rw [hperm]
  · rw [hown, List.perm_singleton] at hperm
    rw [hperm]
  · -- a name that comes twice stays ambiguous
    have hlength := hperm.length_eq
    rw [hown] at hlength
    rcases hrest : Json.fieldsNamed name rest with _ | ⟨_, _ | _⟩
    · simp [hrest] at hlength
    · simp [hrest] at hlength
    · rfl

/-- Fields of other names do not count. -/
theorem Record.field?_of_foreign {others : List (String × Json)} (h : rest.Perm (own ++ others))
    {name : String} (hforeign : ∀ f ∈ others, f.1 ≠ name) (place : Nat) :
    (Record.named rest).field? name place = (Record.named own).field? name place := by
  rw [field?_of_perm h]
  simp only [field?, Json.fieldsNamed_append, Json.fieldsNamed_of_forall_ne hforeign,
    List.append_nil]

theorem Record.field?_filter (keep : String → Bool) (name : String) (place : Nat) :
    (Record.named (own.filter (keep ·.1))).field? name place =
      if keep name then (Record.named own).field? name place else some none := by
  have hboth (f : String × Json) : (decide (f.1 = name) && keep f.1) =
      if keep name then decide (f.1 = name) else false := by
    by_cases hf : f.1 = name
    · simp [hf]
    · simp [hf]
  simp only [field?, Json.fieldsNamed, List.filter_filter, hboth]
  split_ifs with hk
  · simp
  · simp

end Rearranged

/-! Texts in the fields of a record. -/

section Texts

variable {r : Record} {name s : String} {place : Nat}

theorem Record.text?_of_field? (h : r.field? name place = some (some (.string s))) :
    r.text? name place = some s := by
  simp [text?, h, string?]

theorem Record.defaultText?_of_field? (h : r.field? name place = some (some (.string s))) :
    r.defaultText? name place = some s := by
  simp [defaultText?, h, string?]

theorem Record.defaultText?_of_absent (h : r.field? name place = some none) :
    r.defaultText? name place = some "" := by
  simp [defaultText?, h]

end Texts

namespace Change

/-- The word for the sort of a change. -/
def tag : Change → String
  | added .. => "added"
  | removed .. => "removed"
  | changed .. => "changed"
  | separator => "separator"

/-- The fields of a change behind its tag, as they are written. -/
def fields : Change → List (String × Json)
  | added g d n =>
    [("groupName", .string g), ("changeDetail", .string d), ("newValue", .string n)]
  | removed g d o =>
    [("groupName", .string g), ("changeDetail", .string d), ("oldValue", .string o)]
  | changed g d o n =>
    [("groupName", .string g), ("changeDetail", .string d), ("oldValue", .string o),
      ("newValue", .string n)]
  | separator => []

theorem toJson_eq (c : Change) : c.toJson = .object (("type", .string c.tag) :: c.fields) := by
  cases c <;> rfl

/-- A JSON object stands for a change: it has the tag and the fields of the change in any order,
with the detail or, if that is empty, without it, and among them any others that no change of its
sort has. -/
inductive StoredAs : Change → Json → Prop
  | full {c : Change} {fs others : List (String × Json)}
      (foreign : ∀ f ∈ others, f.1 ≠ "type" ∧ f.1 ∉ c.fields.map Prod.fst)
      (order : fs.Perm (("type", .string c.tag) :: (c.fields ++ others))) : StoredAs c (.object fs)
  | brief {c : Change} {fs others : List (String × Json)}
      (foreign : ∀ f ∈ others, f.1 ≠ "type" ∧ f.1 ∉ c.fields.map Prod.fst)
      (order : fs.Perm
        (("type", .string c.tag) :: (c.fields.filter (·.1 ≠ "changeDetail") ++ others))) :
      StoredAs (c.withDetail "") (.object fs)

@[simp] theorem withDetail_detail (c : Change) : c.withDetail c.detail = c := by cases c <;> rfl

theorem ne_type_of_mem_fields {c : Change} {f : String × Json} (h : f ∈ c.fields) :
    f.1 ≠ "type" := by
  have hall : ∀ f ∈ c.fields, f.1 ≠ "type" := by cases c <;> simp [fields]
  exact hall f h

/-- A record is the change that its tag and its fields say. -/
theorem ofJson?_of_field? {c : Change} {v : Json} {r : Record} {d : String}
    (hr : v.record? = some (.string c.tag, r)) (hfits : ∀ n, r.fits n)
    (hfield : ∀ name ∈ c.fields.map Prod.fst, name ≠ "changeDetail" → ∀ place,
      r.field? name place = (Record.named c.fields).field? name place)
    (hdetail : c ≠ separator → r.defaultText? "changeDetail" 1 = some d) :
    ofJson? v = some (c.withDetail d) := by
  cases c with
  | added g d' n =>
    have hg : r.text? "groupName" 0 = some g :=
      Record.text?_of_field? (hfield _ (by simp [fields]) (by decide) 0)
    have hn : r.text? "newValue" 2 = some n :=
      Record.text?_of_field? (hfield _ (by simp [fields]) (by decide) 2)
    simp [ofJson?, hr, tag, hfits, hg, hdetail, hn, withDetail]
  | removed g d' o =>
    have hg : r.text? "groupName" 0 = some g :=
      Record.text?_of_field? (hfield _ (by simp [fields]) (by decide) 0)
    have ho : r.text? "oldValue" 2 = some o :=
      Record.text?_of_field? (hfield _ (by simp [fields]) (by decide) 2)
    simp [ofJson?, hr, tag, hfits, hg, hdetail, ho, withDetail]
  | changed g d' o n =>
    have hg : r.text? "groupName" 0 = some g :=
      Record.text?_of_field? (hfield _ (by simp [fields]) (by decide) 0)
    have ho : r.text? "oldValue" 2 = some o :=
      Record.text?_of_field? (hfield _ (by simp [fields]) (by decide) 2)
    have hn : r.text? "newValue" 3 = some n :=
      Record.text?_of_field? (hfield _ (by simp [fields]) (by decide) 3)
    simp [ofJson?, hr, tag, hfits, hg, hdetail, ho, hn, withDetail]
  | separator => simp [ofJson?, hr, tag, hfits, withDetail]

/-- Some of the fields of a change, all but the detail at least, among fields that it has not. -/
theorem exists_record? {c : Change} {fs others : List (String × Json)} (keep : String → Bool)
    (foreign : ∀ f ∈ others, f.1 ≠ "type" ∧ f.1 ∉ c.fields.map Prod.fst)
    (order : fs.Perm (("type", .string c.tag) :: (c.fields.filter (keep ·.1) ++ others))) :
    ∃ r, (Json.object fs).record? = some (.string c.tag, r) ∧ (∀ n, r.fits n) ∧
      ∀ name ∈ c.fields.map Prod.fst, ∀ place, r.field? name place =
        if keep name then (Record.named c.fields).field? name place else some none := by
  have htagless : ∀ f ∈ c.fields.filter (keep ·.1) ++ others, f.1 ≠ "type" :=
    List.forall_mem_append.mpr
      ⟨fun f hf => ne_type_of_mem_fields (List.mem_filter.mp hf).1, fun f hf => (foreign f hf).1⟩
  obtain ⟨rest, hr, hperm⟩ := Json.record?_of_perm order htagless
  refine ⟨.named rest, hr, fun _ => rfl, fun name hname place => ?_⟩
  have hforeign : ∀ f ∈ others, f.1 ≠ name := fun f hf heq => (foreign f hf).2 (heq ▸ hname)
  rw [Record.field?_of_foreign hperm hforeign, Record.field?_filter]

/-- Whatever stands for a change is read as it. -/
theorem ofJson?_of_storedAs {c : Change} {v : Json} (h : StoredAs c v) : ofJson? v = some c := by
  cases h with
  | @full _ fs others foreign order =>
    have horder : fs.Perm
        (("type", .string c.tag) :: (c.fields.filter (fun _ => true) ++ others)) := by
      rwa [List.filter_true]
    obtain ⟨r, hr, hfits, hfield⟩ := exists_record? (fun _ => true) foreign horder
    have hdetail : c ≠ separator → r.defaultText? "changeDetail" 1 = some c.detail := by
      intro hc
      cases c with
      | separator => exact absurd rfl hc
      | _ => exact Record.defaultText?_of_field? (hfield _ (by simp [fields]) 1)
    rw [ofJson?_of_field? hr hfits (fun name hname _ => hfield name hname) hdetail,
      withDetail_detail]
  | @brief c fs others foreign order =>
    obtain ⟨r, hr, hfits, hfield⟩ := exists_record? (· ≠ "changeDetail") foreign order
    have hdetail : c ≠ separator → r.defaultText? "changeDetail" 1 = some "" := by
      intro hc
      cases c with
      | separator => exact absurd rfl hc
      | _ => exact Record.defaultText?_of_absent (hfield _ (by simp [fields]) 1)
    refine ofJson?_of_field? hr hfits (fun name hname hne place => ?_) hdetail
    rw [hfield name hname, if_pos (decide_eq_true hne)]

/-! Lists of changes. -/

theorem storedAs_toJson (c : Change) : StoredAs c c.toJson := by
  rw [toJson_eq]
  exact @StoredAs.full c _ [] (by simp) (by rw [List.append_nil])

theorem listOfJson?_of_storedAs {cs : List Change} {vs : List Json}
    (h : List.Forall₂ StoredAs cs vs) : listOfJson? (.array vs) = some cs := by
  show vs.mapM ofJson? = some cs
  induction h with
  | nil => rfl
  | cons hc _ ih =>
    rw [List.mapM_cons, ofJson?_of_storedAs hc, ih]
    rfl

theorem storedAs_listToJson (cs : List Change) : List.Forall₂ StoredAs cs (cs.map toJson) := by
  rw [List.forall₂_map_right_iff, List.forall₂_same]
  exact fun c _ => storedAs_toJson c

theorem numberless_toJson (c : Change) : c.toJson.Numberless := by
  cases c <;> simp [toJson, Json.Numberless, Json.NumberlessFields]

theorem depth_toJson (c : Change) : c.toJson.depth = 1 := by
  cases c <;> simp [toJson, Json.depth, Json.fieldsDepth]

theorem numberless_listToJson (cs : List Change) : (listToJson cs).Numberless := by
  show Json.NumberlessItems (cs.map toJson)
  induction cs with
  | nil => trivial
  | cons c cs ih => exact ⟨numberless_toJson c, ih⟩

theorem depth_listToJson_le (cs : List Change) : (listToJson cs).depth ≤ 2 := by
  have hitems : Json.itemsDepth (cs.map toJson) ≤ 1 := by
    induction cs with
    | nil => simp [Json.itemsDepth]
    | cons c cs ih => simpa [Json.itemsDepth, depth_toJson] using ih
  simpa [listToJson, Json.depth] using hitems

/-- A report in JSON is the list of its changes. -/
theorem parse_document (cs : List Change) :
    Json.parse (Report.document cs) = .ok (listToJson cs) := by
  have hspelled := Json.spelled_prettyChars (numberless_listToJson cs) 0
  have hdepth : (listToJson cs).depth ≤ Json.maxDepth :=
    (depth_listToJson_le cs).trans (by decide)
  have htext : Report.document cs =
      String.ofList (Json.prettyChars 0 (listToJson cs) ++ ['\n']) := by
    rw [Report.document, Json.pretty, String.ofList_append]
  rw [htext]
  exact Json.parse_spelled_blanks hspelled hdepth Json.blanks_lineFeed

/-- A report in JSON is read back as the changes it is on, and so is every other JSON text in which
an object stands for each of them. -/
theorem listOfText?_of_stored (cs : List Change) (title : String)
    (versions : Option (String × String)) :
    listOfText? (Report.render cs .json title versions) = some cs ∧
      ∀ text vs, Json.parse text = .ok (.array vs) → List.Forall₂ StoredAs cs vs →
        listOfText? text = some cs := by
  have hread : ∀ text vs, Json.parse text = .ok (.array vs) → List.Forall₂ StoredAs cs vs →
      listOfText? text = some cs := by
    intro text vs htext hvs
    rw [listOfText?, htext]
    exact listOfJson?_of_storedAs hvs
  exact ⟨hread _ _ (parse_document cs) (storedAs_listToJson cs), hread⟩

/-- Changes that are stored back to front, the first one without its detail, with the field of
another sort of change in it and one that no change has in the second. -/
def backward : String :=
  "[\x7b\"oldValue\": [null], \"newValue\": \"\\u00e9\\n\", \"groupName\": \"\", " ++
    "\"type\": \"added\"\x7d,\n \x7b\"seen\": \x7b\"by\": true\x7d, \"type\": \"separator\"\x7d]"

theorem listOfText?_of_stored_backward :
    let cs := [added "" "" "é\n", separator]
    let vs : List Json := [.object [("oldValue", .array [.null]),
        ("newValue", .string "é\n"), ("groupName", .string ""), ("type", .string "added")],
      .object [("seen", .object [("by", .bool true)]), ("type", .string "separator")]]
    (Json.parse backward = .ok (.array vs) ∧ List.Forall₂ StoredAs cs vs) ∧
      listOfText? (Report.render cs .json "" none) = some cs ∧ listOfText? backward = some cs := by
  intro cs vs
  have hparse : Json.parse backward = .ok (.array vs) := by cbv
  have hadded : StoredAs (added "" "" "é\n") (.object [("oldValue", .array [.null]),
      ("newValue", .string "é\n"), ("groupName", .string ""), ("type", .string "added")]) := by
    refine @StoredAs.brief (added "" "" "é\n") _ [("oldValue", .array [.null])] ?_
      (List.reverse_perm _).symm
    simp [fields]
  have hseparator : StoredAs separator
      (.object [("seen", .object [("by", .bool true)]), ("type", .string "separator")]) := by
    refine @StoredAs.full separator _ [("seen", .object [("by", .bool true)])] ?_
      (List.reverse_perm _).symm
    simp [fields]
  have hstored : List.Forall₂ StoredAs cs vs := .cons hadded (.cons hseparator .nil)
  obtain ⟨hrender, hread⟩ := listOfText?_of_stored cs "" none
  exact ⟨⟨hparse, hstored⟩, hrender, hread backward vs hparse hstored⟩

end Change
end ApiSurface
