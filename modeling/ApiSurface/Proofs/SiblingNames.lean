import ApiSurface.Proofs.Lookup

/-! What an index of siblings says. Its names ascend strictly in the order of their UTF-8 bytes,
they are the names of the siblings, and each of them leads to the last sibling that has it, linked
to the container. No other index says this of the same siblings. -/
namespace ApiSurface

/-! The order of texts is the order of their bytes. -/
namespace Text

/-- The bytes of a text in UTF-8. -/
def bytes (s : String) : List UInt8 := s.toUTF8.data.toList

theorem bytes_eq (s : String) : bytes s = s.toList.flatMap String.utf8EncodeChar := by
  have h : s = String.ofList s.toList := String.ofList_toList.symm
  rw [bytes, String.toUTF8]
  conv => lhs; rw [h]
  rw [String.toByteArray_ofList, List.utf8Encode]
  simp

/-- The bytes of a character come before the bytes of a later one, whatever stands behind them.
Of two characters with equally many bytes these are the digits to base 64; of others the one with
fewer bytes has the lower first byte. -/
theorem utf8EncodeChar_append_lt {c d : Char} (h : c < d) (xs ys : List UInt8) :
    String.utf8EncodeChar c ++ xs < String.utf8EncodeChar d ++ ys := by
  have hlt : c.toNat < d.toNat := h
  have hd : d.toNat < 1114112 := by
    rcases d.valid with hv | hv
    · exact lt_trans hv (by decide)
    · exact hv.2
  have h4096 (n : Nat) : n / 4096 = n / 64 / 64 := by omega
  have h262144 (n : Nat) : n / 262144 = n / 64 / 64 / 64 := by omega
  simp only [String.utf8EncodeChar, Char.toNat_val, h4096, h262144]
  split_ifs <;>
    simp only [List.cons_append, List.nil_append, List.cons_lt_cons_iff, UInt8.lt_iff_toNat_lt,
      ← UInt8.toNat_inj, UInt8.toNat_ofNat'] <;> omega

theorem flatMap_utf8EncodeChar_lt {cs ds : List Char} (h : cs < ds) :
    cs.flatMap String.utf8EncodeChar < ds.flatMap String.utf8EncodeChar := by
  induction h with
  | @nil d ds =>
    obtain ⟨b, bs, hb⟩ := List.exists_cons_of_ne_nil (String.utf8EncodeChar_ne_nil (c := d))
    simp [hb]
  | rel h => exact utf8EncodeChar_append_lt h _ _
  | cons _ ih => exact List.append_left_lt ih

theorem bytes_lt_bytes {s t : String} (h : s < t) : bytes s < bytes t := by
  rw [bytes_eq, bytes_eq]
  exact flatMap_utf8EncodeChar_lt (String.lt_iff_toList_lt.mp h)

end Text

/-- A declaration is the last of its siblings with its name. -/
def Declaration.IsLast (ds : List Declaration) (d : Declaration) : Prop :=
  ∃ before after, ds = before ++ d :: after ∧ ∀ e ∈ after, e.name ≠ d.name

theorem Declaration.lastNamed?_eq_some_iff {n : String} {ds : List Declaration}
    {d : Declaration} : lastNamed? n ds = some d ↔ d.name = n ∧ IsLast ds d := by
  rw [lastNamed?, List.find?_eq_some_iff_append]
  constructor
  · rintro ⟨hn, after, before, he, hafter⟩
    have hn : d.name = n := by simpa using hn
    refine ⟨hn, before.reverse, after.reverse, ?_, fun e he => ?_⟩
    · simpa using congrArg List.reverse he
    · simpa [hn] using hafter e (List.mem_reverse.mp he)
  · rintro ⟨rfl, before, after, rfl, hafter⟩
    refine ⟨by simp, after.reverse, before.reverse, by simp, fun e he => ?_⟩
    simpa using hafter e (List.mem_reverse.mp he)

theorem Declaration.isSome_lastNamed? (n : String) (ds : List Declaration) :
    (lastNamed? n ds).isSome ↔ ∃ d ∈ ds, d.name = n := by
  simp [lastNamed?, List.find?_isSome]

namespace Index

/-- What an index says about the siblings in a container. -/
structure Lists (i : Index) (parent : Option String) (ds : List Declaration) : Prop where
  ascending : (i.names.map Text.bytes).Pairwise (· < ·)
  nodup : i.names.Nodup
  mem_names (n : String) : n ∈ i.names ↔ ∃ d ∈ ds, d.name = n
  contains (n : String) : i.contains n ↔ ∃ d ∈ ds, d.name = n
  get? (n : String) (l : Linked) : i.get? n = some l ↔
    l.name = n ∧ l.declaration.IsLast ds ∧ l.parent = parent
  mem_entries (n : String) (l : Linked) : (n, l) ∈ i.entries ↔ i.get? n = some l

/-- Where no name is repeated, the entries are what is found. -/
theorem mem_entries_iff {i : Index} (h : i.names.Nodup) (n : String) (l : Linked) :
    (n, l) ∈ i.entries ↔ i.get? n = some l := by
  rw [Index.get?, Option.map_eq_some_iff]
  constructor
  · intro hm
    have hsome : (i.entries.find? (·.1 = n)).isSome :=
      List.find?_isSome.mpr ⟨(n, l), hm, by simp⟩
    obtain ⟨e, he⟩ := Option.isSome_iff_exists.mp hsome
    have hn : e.1 = n := by simpa using List.find?_some he
    have heq : e = (n, l) :=
      List.inj_on_of_nodup_map h (List.mem_of_find?_eq_some he) hm hn
    exact ⟨e, he, congrArg Prod.snd heq⟩
  · rintro ⟨⟨m, k⟩, he, rfl⟩
    have hm : m = n := by simpa using List.find?_some he
    exact hm ▸ List.mem_of_find?_eq_some he

theorem get?_ofList_eq_some_iff (parent : Option String) (ds : List Declaration) (n : String)
    (l : Linked) : (ofList parent ds).get? n = some l ↔
      l.name = n ∧ l.declaration.IsLast ds ∧ l.parent = parent := by
  obtain ⟨d, p⟩ := l
  rw [get?_ofList, Option.map_eq_some_iff]
  constructor
  · rintro ⟨d', hd, he⟩
    obtain ⟨rfl, rfl⟩ := Linked.mk.inj he
    exact ⟨(Declaration.lastNamed?_eq_some_iff.mp hd).1,
      (Declaration.lastNamed?_eq_some_iff.mp hd).2, rfl⟩
  · rintro ⟨hn, hd, rfl⟩
    exact ⟨d, Declaration.lastNamed?_eq_some_iff.mpr ⟨hn, hd⟩, rfl⟩

theorem contains_ofList (parent : Option String) (ds : List Declaration) (n : String) :
    (ofList parent ds).contains n ↔ ∃ d ∈ ds, d.name = n := by
  rw [Index.contains, get?_ofList, Option.isSome_map, Declaration.isSome_lastNamed?]

theorem lists_self (parent : Option String) (ds : List Declaration) :
    (ofList parent ds).Lists parent ds where
  ascending := (pairwise_names_ofList parent ds).map Text.bytes fun _ _ => Text.bytes_lt_bytes
  nodup := nodup_names_ofList parent ds
  mem_names n := (mem_names _ n).trans (contains_ofList parent ds n)
  contains := contains_ofList parent ds
  get? := get?_ofList_eq_some_iff parent ds
  mem_entries := mem_entries_iff (nodup_names_ofList parent ds)

/-- The siblings and the container leave no choice: the entries are found alike, and their names
ascend. -/
theorem Lists.unique {i j : Index} {parent : Option String} {ds : List Declaration}
    (hi : i.Lists parent ds) (hj : j.Lists parent ds) : i = j := by
  have hmem (e : String × Linked) : e ∈ i.entries ↔ e ∈ j.entries := by
    rw [hi.mem_entries, hj.mem_entries, hi.get?, hj.get?]
  have hperm : i.entries.Perm j.entries :=
    (List.perm_ext_iff_of_nodup hi.nodup.of_map hj.nodup.of_map).mpr hmem
  have ascending {k : Index} (hk : k.Lists parent ds) :
      k.entries.Pairwise fun a b => Text.bytes a.1 < Text.bytes b.1 := by
    simpa [names, List.pairwise_map] using hk.ascending
  have hentries : i.entries = j.entries := by
    refine hperm.eq_of_pairwise (fun a b _ _ hab hba => ?_) (ascending hi) (ascending hj)
    exact absurd hba (List.lt_asymm hab)
  obtain ⟨is⟩ := i
  obtain ⟨js⟩ := j
  exact congrArg Index.mk hentries

/-- The index of siblings lists their names strictly ascending by bytes, leads from each name to
the last sibling with it, linked to the container or to nothing at top level, and is the only one
that does. -/
theorem lists_siblings :
    (∀ parent ds i, Lists i parent ds ↔ i = ofList parent ds) ∧
    (∀ s, (ofStructure s).Lists none s) ∧
    (∀ d, (ofMembers (some d)).Lists (some d.name) d.members) ∧
    (ofMembers none).Lists none [] := by
  refine ⟨fun parent ds i => ⟨fun h => h.unique (lists_self parent ds), ?_⟩, ?_, ?_, ?_⟩
  · rintro rfl
    exact lists_self parent ds
  · exact lists_self none
  · exact fun d => lists_self (some d.name) d.members
  · exact lists_self none []

-- by its units in UTF-16 the character outside of the basic plane would come first
example : (ofStructure [.typeAlias "𐀀" "A", .typeAlias "ﬀ" "B", .typeAlias "𐀀" "C"]).names =
    ["ﬀ", "𐀀"] := by decide

end Index
end ApiSurface
