import ApiSurface.Proofs.JsonLexemes

/-! The grammar of JSON texts, with any blanks between tokens and any spelling of strings and
numbers. A rule tells what stands at the front of a text and the rest behind it. Main statement: a
text is read as a value exactly if it spells the value and nests no deeper than there is room for.
-/
namespace ApiSurface.Json
open Reader

/-! Values. -/

/-- Blanks that may stand between two tokens. -/
def Blanks (cs : List Char) : Prop := ∀ c ∈ cs, isBlank c

theorem blanks_nil : Blanks [] := nofun

/-- What may stand in front of an item or a field: blanks, and a comma unless it is the first. -/
inductive Between : Bool → List Char → Prop
  | first {b} : Blanks b → Between true b
  | next {b b'} : Blanks b → Blanks b' → Between false (b ++ ',' :: b')

mutual

/-- A value at the front of a text and the rest behind it. -/
inductive Written : Json → List Char → List Char → Prop
  | null {rest} : Written .null ('n' :: 'u' :: 'l' :: 'l' :: rest) rest
  | yes {rest} : Written (.bool true) ('t' :: 'r' :: 'u' :: 'e' :: rest) rest
  | no {rest} : Written (.bool false) ('f' :: 'a' :: 'l' :: 's' :: 'e' :: rest) rest
  | number {m cs rest} : Numeral m cs rest → Written (.number (String.ofList m)) cs rest
  | string {s cs rest} : Quoted s cs rest → Written (.string (String.ofList s)) ('"' :: cs) rest
  | array {vs cs rest} : WrittenItems true vs cs rest → Written (.array vs) ('[' :: cs) rest
  | object {fs cs rest} : WrittenFields true fs cs rest →
      Written (.object fs) ('\x7b' :: cs) rest

/-- The items of an array up to its closing bracket. -/
inductive WrittenItems : Bool → List Json → List Char → List Char → Prop
  | close {first b rest} : Blanks b → WrittenItems first [] (b ++ ']' :: rest) rest
  | item {first v vs b cs cs₁ rest} : Between first b → Written v cs cs₁ →
      WrittenItems false vs cs₁ rest → WrittenItems first (v :: vs) (b ++ cs) rest

/-- The fields of an object up to its closing brace. -/
inductive WrittenFields : Bool → List (String × Json) → List Char → List Char → Prop
  | close {first b rest} : Blanks b → WrittenFields first [] (b ++ '\x7d' :: rest) rest
  | field {first k v fs b b' b'' cs cs₁ cs₂ rest} : Between first b →
      Quoted k cs (b' ++ ':' :: (b'' ++ cs₁)) → Blanks b' → Blanks b'' → Written v cs₁ cs₂ →
      WrittenFields false fs cs₂ rest →
      WrittenFields first ((String.ofList k, v) :: fs) (b ++ '"' :: cs) rest

end

theorem letters_eq_ok_iff {ls cs rest : List Char} :
    letters ls cs = .ok ((), rest) ↔ cs = ls ++ rest := by
  induction ls generalizing cs with
  | nil =>
    show Except.ok ((), cs) = .ok ((), rest) ↔ _
    simp
  | cons l ls ih =>
    cases cs with
    | nil =>
      show Except.error Fault.truncated = Except.ok ((), rest) ↔ _
      simp
    | cons c cs =>
      rw [letters, next_bind]
      split_ifs with hc
      · simp [ih, hc]
      · show Except.error Fault.malformed = Except.ok ((), rest) ↔ _
        simp [hc]

theorem scalar_of_eq_ok {c : Char} {cs rest : List Char} {v : Json}
    (h : Reader.scalar c (c :: cs) = .ok (v, rest)) : Written v (c :: cs) rest := by
  unfold Reader.scalar at h
  split_ifs at h with hn ht hf hquote hnumber
  iterate 3
    rw [skip_bind, bind_eq_ok] at h
    obtain ⟨_, cs₁, hletters, h⟩ := h
    obtain ⟨rfl, rfl⟩ := pure_eq_ok.mp h
    obtain rfl := letters_eq_ok_iff.mp hletters
    subst c
    constructor
  · rw [skip_bind, bind_eq_ok] at h
    obtain ⟨s, cs₁, hs, h⟩ := h
    obtain ⟨rfl, rfl⟩ := pure_eq_ok.mp h
    obtain ⟨k, rfl, hk⟩ := stringBody_eq_ok_iff.mp hs
    exact hquote ▸ .string hk
  · obtain ⟨m, rfl, hm⟩ := number_eq_ok_iff.mp h
    exact .number hm
  · cases h

theorem Numeral.head {m cs rest : List Char} (h : Numeral m cs rest) :
    ∃ d ds, cs = d :: ds ∧ (d = '-' ∨ d.isDigit) := by
  cases h with
  | positive hm =>
    obtain ⟨d, ds, rfl, hd⟩ := hm.head
    exact ⟨d, ds, rfl, .inr hd⟩
  | negative hm => exact ⟨_, _, rfl, .inl rfl⟩

/-- A digit is none of the characters that open another kind of value or stand around values. -/
theorem isBlank_of_sign_or_digit {d : Char} (h : d = '-' ∨ d.isDigit) :
    isBlank d = false ∧ d ∉ ['[', '\x7b', ']', 'n', 't', 'f', '"'] := by
  obtain rfl | h := h
  · decide
  · have hne {c : Char} (hc : c.isDigit = false) : d ≠ c := by
      rintro rfl
      rw [hc] at h
      cases h
    constructor
    · simp [isBlank, hne (c := ' ') rfl, hne (c := '\n') rfl, hne (c := '\t') rfl,
        hne (c := '\r') rfl]
    · simp [hne (c := '[') rfl, hne (c := '\x7b') rfl, hne (c := ']') rfl, hne (c := 'n') rfl,
        hne (c := 't') rfl, hne (c := 'f') rfl, hne (c := '"') rfl]

theorem scalar_number {m cs rest : List Char} (h : Numeral m cs rest) :
    ∃ d ds, cs = d :: ds ∧ isBlank d = false ∧ d ∉ ['[', '\x7b', ']'] ∧
      Reader.scalar d cs = .ok (.number (String.ofList m), rest) := by
  obtain ⟨d, ds, rfl, hd⟩ := h.head
  obtain ⟨hblank, hne⟩ := isBlank_of_sign_or_digit hd
  simp only [List.mem_cons, not_or] at hne
  obtain ⟨hopen, hbrace, hclose, hn, ht, hf, hquote, -⟩ := hne
  refine ⟨d, ds, rfl, hblank, by simp [hopen, hbrace, hclose], ?_⟩
  rw [Reader.scalar, if_neg hn, if_neg ht, if_neg hf, if_neg hquote, if_pos (by simpa using hd)]
  exact number_eq_ok_iff.mpr ⟨m, rfl, h⟩

/-- A value opens with a character of its own. -/
theorem Written.head {v : Json} {cs rest : List Char} (h : Written v cs rest) :
    ∃ d ds, cs = d :: ds ∧ isBlank d = false ∧ d ≠ ']' := by
  cases h with
  | number hm =>
    obtain ⟨d, ds, rfl, hblank, hne, -⟩ := scalar_number hm
    simp only [List.mem_cons, not_or] at hne
    exact ⟨d, ds, rfl, hblank, hne.2.2.1⟩
  | _ => exact ⟨_, _, rfl, by decide, by decide⟩

/-- What opens neither an array nor an object nests nothing. -/
theorem Written.depth_of_scalar {v : Json} {d : Char} {cs rest : List Char}
    (h : Written v (d :: cs) rest) (hd : (d = '[' || d = '\x7b') = false) : v.depth = 0 := by
  cases h with
  | array | object => cases hd
  | _ => rfl

/-! How deep a value nests. -/

theorem itemsDepth_le_iff {vs : List Json} {n : Nat} :
    itemsDepth vs ≤ n ↔ ∀ v ∈ vs, v.depth ≤ n := by
  induction vs with
  | nil => simp [itemsDepth]
  | cons v vs ih => rw [itemsDepth, Nat.max_le, ih, List.forall_mem_cons]

theorem fieldsDepth_le_iff {fs : List (String × Json)} {n : Nat} :
    fieldsDepth fs ≤ n ↔ ∀ f ∈ fs, f.2.depth ≤ n := by
  induction fs with
  | nil => simp [fieldsDepth]
  | cons f fs ih => rw [fieldsDepth, Nat.max_le, ih, List.forall_mem_cons]

theorem depth_array_le_succ_iff {vs : List Json} {n : Nat} :
    (Json.array vs).depth ≤ n + 1 ↔ ∀ v ∈ vs, v.depth ≤ n := by
  rw [depth, Nat.add_le_add_iff_right, itemsDepth_le_iff]

theorem depth_object_le_succ_iff {fs : List (String × Json)} {n : Nat} :
    (Json.object fs).depth ≤ n + 1 ↔ ∀ f ∈ fs, f.2.depth ≤ n := by
  rw [depth, Nat.add_le_add_iff_right, fieldsDepth_le_iff]

/-! What stands between values. -/

theorem token?_blanks {b : List Char} (h : Blanks b) {c : Char} (hc : isBlank c = false)
    (cs : List Char) : token? (b ++ c :: cs) = .ok (some c, c :: cs) := by
  have hd : (b ++ c :: cs).dropWhile isBlank = c :: cs := by
    rw [List.dropWhile_append_of_pos h, List.dropWhile_cons_of_neg (by simp [hc])]
  show (skipBlank >>= fun _ => peek?) _ = _
  have hskip : skipBlank (b ++ c :: cs) = .ok ((), c :: cs) := by rw [skipBlank, hd]
  rw [bind_ok hskip]
  rfl

theorem token?_cons {c : Char} (hc : isBlank c = false) (cs : List Char) :
    token? (c :: cs) = .ok (some c, c :: cs) :=
  token?_blanks blanks_nil hc cs

theorem token?_eq_ok {c? : Option Char} {cs rest : List Char} (h : token? cs = .ok (c?, rest)) :
    (∃ b, Blanks b ∧ cs = b ++ rest) ∧ c? = rest.head? ∧ ∀ c, c? = some c → isBlank c = false := by
  change Except.ok ((cs.dropWhile isBlank).head?, cs.dropWhile isBlank) = _ at h
  cases h
  refine ⟨⟨_, fun c hc => List.mem_takeWhile_imp hc, List.takeWhile_append_dropWhile.symm⟩, rfl,
    fun c hc => ?_⟩
  have hnot := List.head?_dropWhile_not isBlank cs
  rw [hc] at hnot
  simpa using hnot

theorem Between.append_blanks {first : Bool} {b b' : List Char} (h : Between first b)
    (hb : Blanks b') : Between first (b ++ b') := by
  have happend {a : List Char} (ha : Blanks a) : Blanks (a ++ b') :=
    List.forall_mem_append.mpr ⟨ha, hb⟩
  cases h with
  | first ha => exact .first (happend ha)
  | next ha ha' =>
    rw [List.append_assoc, List.cons_append]
    exact .next ha (happend ha')

section Next

variable {close : Char} {start : Char → Reader Unit} {first : Bool} {cs rest : List Char}

/-- What more there is stands behind blanks, and behind a comma if it is not the first. -/
theorem between_of_hasNext (h : hasNext close start first cs = .ok (true, rest)) :
    ∃ b c cs', Between first b ∧ cs = b ++ c :: cs' ∧ start c (c :: cs') = .ok ((), rest) := by
  rw [hasNext, bind_eq_ok] at h
  obtain ⟨c?, cs₁, htoken, h⟩ := h
  obtain ⟨⟨b, hb, rfl⟩, hhead, -⟩ := token?_eq_ok htoken
  split at h
  · cases h
  · next c =>
    obtain ⟨cs₂, rfl⟩ := List.head?_eq_some_iff.mp hhead.symm
    split_ifs at h with hclose hfirst hcomma
    · cases h
    · obtain ⟨_, cs₃, hstart, h⟩ := bind_eq_ok.mp h
      obtain ⟨-, rfl⟩ := pure_eq_ok.mp h
      exact ⟨b, c, cs₂, hfirst ▸ .first hb, rfl, hstart⟩
    · rw [skip_bind, bind_eq_ok] at h
      obtain ⟨c?', cs₃, htoken', h⟩ := h
      obtain ⟨⟨b', hb', rfl⟩, hhead', -⟩ := token?_eq_ok htoken'
      split at h
      · cases h
      · next d =>
        obtain ⟨cs₄, rfl⟩ := List.head?_eq_some_iff.mp hhead'.symm
        obtain ⟨_, cs₅, hstart, h⟩ := bind_eq_ok.mp h
        obtain ⟨-, rfl⟩ := pure_eq_ok.mp h
        refine ⟨b ++ ',' :: b', d, cs₄, ?_, by simp [hcomma], hstart⟩
        rw [Bool.eq_false_iff.mpr hfirst]
        exact .next hb hb'
    · cases h

theorem close_of_hasNext (h : hasNext close start first cs = .ok (false, rest)) :
    ∃ b cs', Blanks b ∧ cs = b ++ rest ∧ rest = close :: cs' := by
  rw [hasNext, bind_eq_ok] at h
  obtain ⟨c?, cs₁, htoken, h⟩ := h
  obtain ⟨⟨b, hb, rfl⟩, hhead, -⟩ := token?_eq_ok htoken
  split at h
  · cases h
  · next c =>
    obtain ⟨cs₂, rfl⟩ := List.head?_eq_some_iff.mp hhead.symm
    split_ifs at h with hclose hfirst hcomma
    · obtain ⟨-, rfl⟩ := pure_eq_ok.mp h
      exact ⟨b, cs₂, hb, rfl, by rw [hclose]⟩
    · obtain ⟨_, _, -, h⟩ := bind_eq_ok.mp h
      cases h
    · obtain ⟨_, _, -, h⟩ := bind_eq_ok.mp h
      obtain ⟨_, _, -, h⟩ := bind_eq_ok.mp h
      split at h
      · cases h
      · obtain ⟨_, _, -, h⟩ := bind_eq_ok.mp h
        cases h
    · cases h

end Next

theorem between_of_hasItem {first : Bool} {cs rest : List Char}
    (h : hasItem first cs = .ok (true, rest)) : ∃ b, Between first b ∧ cs = b ++ rest := by
  obtain ⟨b, c, cs', hb, rfl, hstart⟩ := between_of_hasNext h
  rw [startItem] at hstart
  split_ifs at hstart
  · cases hstart
  · cases hstart
    exact ⟨b, hb, rfl⟩

theorem between_of_hasField {first : Bool} {cs rest : List Char}
    (h : hasField first cs = .ok (true, rest)) :
    ∃ b, Between first b ∧ cs = b ++ '"' :: rest := by
  obtain ⟨b, c, cs', hb, rfl, hstart⟩ := between_of_hasNext h
  rw [startField] at hstart
  split_ifs at hstart with hquote
  · cases hstart
    exact ⟨b, hb, by rw [hquote]; rfl⟩
  · cases hstart

theorem colon_eq_ok {cs rest : List Char} (h : colon cs = .ok ((), rest)) :
    ∃ b, Blanks b ∧ cs = b ++ ':' :: rest := by
  rw [colon, bind_eq_ok] at h
  obtain ⟨c?, cs₁, htoken, h⟩ := h
  obtain ⟨⟨b, hb, rfl⟩, hhead, -⟩ := token?_eq_ok htoken
  split at h
  · cases h
  · obtain ⟨cs₂, rfl⟩ := List.head?_eq_some_iff.mp hhead.symm
    cases h
    exact ⟨b, hb, rfl⟩
  · cases h

/-! Values behind blanks. -/

/-- What opens neither an array nor an object is a scalar. -/
theorem value_scalar {d : Char} (hd : isBlank d = false) (ho : (d = '[' || d = '\x7b') = false)
    (room : Nat) (cs : List Char) : value room (d :: cs) = Reader.scalar d (d :: cs) := by
  rw [value, bind_ok (token?_cons hd cs)]
  simp [ho]

theorem value_array (room : Nat) (cs : List Char) :
    value (room + 1) ('[' :: cs) =
      (items (value room) (cs.length + 1) true >>= fun vs => pure (.array vs) : Reader Json)
        cs := by
  rw [value, bind_ok (token?_cons (by decide) cs)]
  rfl

theorem value_object (room : Nat) (cs : List Char) :
    value (room + 1) ('\x7b' :: cs) =
      (fields (value room) (cs.length + 1) true >>= fun fs => pure (.object fs) : Reader Json)
        cs := by
  rw [value, bind_ok (token?_cons (by decide) cs)]
  rfl

/-- Blanks in front of a value are passed over. -/
theorem value_behind {b : List Char} (hb : Blanks b) {c : Char} (hc : isBlank c = false)
    (room : Nat) (cs : List Char) : value room (b ++ c :: cs) = value room (c :: cs) := by
  unfold value
  rw [bind_ok (token?_blanks hb hc _), bind_ok (token?_cons hc _)]

theorem exists_blanks_of_value {room : Nat} {cs rest : List Char} {v : Json}
    (h : value room cs = .ok (v, rest)) :
    ∃ b c cs', Blanks b ∧ isBlank c = false ∧ cs = b ++ c :: cs' ∧
      value room (c :: cs') = .ok (v, rest) := by
  have hread := h
  rw [value, bind_eq_ok] at h
  obtain ⟨c?, cs₁, htoken, h⟩ := h
  obtain ⟨⟨b, hb, rfl⟩, hhead, hblank⟩ := token?_eq_ok htoken
  split at h
  · cases h
  · next c =>
    obtain ⟨cs₂, rfl⟩ := List.head?_eq_some_iff.mp hhead.symm
    have hc := hblank c rfl
    exact ⟨b, c, cs₂, hb, hc, rfl, (value_behind hb hc room cs₂).symm.trans hread⟩

/-! What is read is written so. -/

/-- What a reader of values reads is written, behind blanks, and nests no deeper than there is room
for. -/
def ReadsWritten (item : Reader Json) (room : Nat) : Prop :=
  ∀ {cs rest v}, item cs = .ok (v, rest) →
    (∃ b cs', Blanks b ∧ cs = b ++ cs' ∧ Written v cs' rest) ∧ v.depth ≤ room

section Bodies

variable {item : Reader Json} {room : Nat}

theorem writtenItems_of_items (hitem : ReadsWritten item room) {fuel : Nat} :
    ∀ {first : Bool} {cs rest : List Char} {vs : List Json},
      items item fuel first cs = .ok (vs, rest) →
        WrittenItems first vs cs rest ∧ itemsDepth vs ≤ room := by
  induction fuel with
  | zero => exact nofun
  | succ fuel ih =>
    intro first cs rest vs h
    rw [items, bind_eq_ok] at h
    obtain ⟨more, cs₁, hmore, h⟩ := h
    cases more with
    | false =>
      obtain ⟨b, cs₂, hb, rfl, rfl⟩ := close_of_hasNext hmore
      cases h
      exact ⟨.close hb, Nat.zero_le room⟩
    | true =>
      obtain ⟨b, hb, rfl⟩ := between_of_hasItem hmore
      rw [if_pos rfl, bind_eq_ok] at h
      obtain ⟨v, cs₂, hv, h⟩ := h
      rw [bind_eq_ok] at h
      obtain ⟨vs', cs₃, hvs, h⟩ := h
      cases h
      obtain ⟨⟨b', cs₄, hb', rfl, hwritten⟩, hdepth⟩ := hitem hv
      obtain ⟨hitems, hdepths⟩ := ih hvs
      rw [← List.append_assoc]
      exact ⟨.item (hb.append_blanks hb') hwritten hitems, Nat.max_le.mpr ⟨hdepth, hdepths⟩⟩

theorem writtenFields_of_fields (hitem : ReadsWritten item room) {fuel : Nat} :
    ∀ {first : Bool} {cs rest : List Char} {fs : List (String × Json)},
      fields item fuel first cs = .ok (fs, rest) →
        WrittenFields first fs cs rest ∧ fieldsDepth fs ≤ room := by
  induction fuel with
  | zero => exact nofun
  | succ fuel ih =>
    intro first cs rest fs h
    rw [fields, bind_eq_ok] at h
    obtain ⟨more, cs₁, hmore, h⟩ := h
    cases more with
    | false =>
      obtain ⟨b, cs₂, hb, rfl, rfl⟩ := close_of_hasNext hmore
      cases h
      exact ⟨.close hb, Nat.zero_le room⟩
    | true =>
      obtain ⟨b, hb, rfl⟩ := between_of_hasField hmore
      rw [if_pos rfl, bind_eq_ok] at h
      obtain ⟨name, cs₂, hname, h⟩ := h
      obtain ⟨k, rfl, hk⟩ := stringBody_eq_ok_iff.mp hname
      rw [bind_eq_ok] at h
      obtain ⟨_, cs₃, hcolon, h⟩ := h
      obtain ⟨b', hb', rfl⟩ := colon_eq_ok hcolon
      rw [bind_eq_ok] at h
      obtain ⟨v, cs₄, hv, h⟩ := h
      rw [bind_eq_ok] at h
      obtain ⟨fs', cs₅, hfs, h⟩ := h
      cases h
      obtain ⟨⟨b'', cs₆, hb'', rfl, hwritten⟩, hdepth⟩ := hitem hv
      obtain ⟨hfields, hdepths⟩ := ih hfs
      exact ⟨.field hb hk hb' hb'' hwritten hfields, Nat.max_le.mpr ⟨hdepth, hdepths⟩⟩

end Bodies

theorem readsWritten_value (room : Nat) : ReadsWritten (value room) room := by
  induction room with
  | zero =>
    intro cs rest v hread
    obtain ⟨b, c, cs', hb, hc, rfl, h⟩ := exists_blanks_of_value hread
    cases hopen : (c = '[' || c = '\x7b') with
    | true =>
      rw [value, bind_ok (token?_cons hc cs')] at h
      simp only [hopen] at h
      cases h
    | false =>
      rw [value_scalar hc hopen] at h
      have hwritten := scalar_of_eq_ok h
      exact ⟨⟨b, _, hb, rfl, hwritten⟩, Nat.le_of_eq (hwritten.depth_of_scalar hopen)⟩
  | succ room ih =>
    intro cs rest v hread
    obtain ⟨b, c, cs', hb, hc, rfl, h⟩ := exists_blanks_of_value hread
    by_cases hbracket : c = '['
    · subst hbracket
      rw [value_array, bind_eq_ok] at h
      obtain ⟨vs, cs₃, hvs, h⟩ := h
      cases h
      obtain ⟨hitems, hdepth⟩ := writtenItems_of_items ih hvs
      exact ⟨⟨b, _, hb, rfl, .array hitems⟩, Nat.succ_le_succ hdepth⟩
    by_cases hbrace : c = '\x7b'
    · subst hbrace
      rw [value_object, bind_eq_ok] at h
      obtain ⟨fs, cs₃, hfs, h⟩ := h
      cases h
      obtain ⟨hfields, hdepth⟩ := writtenFields_of_fields ih hfs
      exact ⟨⟨b, _, hb, rfl, .object hfields⟩, Nat.succ_le_succ hdepth⟩
    · have hopen : (c = '[' || c = '\x7b') = false := by simp [hbracket, hbrace]
      rw [value_scalar hc hopen] at h
      have hwritten := scalar_of_eq_ok h
      refine ⟨⟨b, _, hb, rfl, hwritten⟩, ?_⟩
      rw [hwritten.depth_of_scalar hopen]
      exact Nat.zero_le _

/-! What is written is read. -/

theorem hasNext_between {close : Char} {start : Char → Reader Unit} (hclose : close ≠ ',')
    {first : Bool} {b : List Char} (hb : Between first b) {c : Char} (hc : isBlank c = false)
    (hne : c ≠ close) {cs rest : List Char} (hstart : start c (c :: cs) = .ok ((), rest)) :
    hasNext close start first (b ++ c :: cs) = .ok (true, rest) := by
  cases hb with
  | first hb =>
    rw [hasNext, bind_ok (token?_blanks hb hc _)]
    simp only [if_neg hne, if_true]
    rw [bind_ok hstart]
    rfl
  | next ha hb =>
    rw [List.append_assoc, List.cons_append, hasNext, bind_ok (token?_blanks ha (by decide) _)]
    simp only [if_neg hclose.symm, if_true, Bool.false_eq_true, if_false]
    rw [skip_bind, bind_ok (token?_blanks hb hc _)]
    simp only []
    rw [bind_ok hstart]
    rfl

theorem hasNext_end {close : Char} (start : Char → Reader Unit) (hc : isBlank close = false)
    (first : Bool) {b : List Char} (hb : Blanks b) (rest : List Char) :
    hasNext close start first (b ++ close :: rest) = .ok (false, close :: rest) := by
  rw [hasNext, bind_ok (token?_blanks hb hc _)]
  simp only [if_true]
  rfl

theorem hasItem_between {first : Bool} {b : List Char} (hb : Between first b) {v : Json}
    {cs rest : List Char} (hv : Written v cs rest) :
    hasItem first (b ++ cs) = .ok (true, cs) := by
  obtain ⟨d, ds, rfl, hd, hne⟩ := hv.head
  exact hasNext_between (by decide) hb hd hne (by rw [startItem, if_neg hne]; rfl)

theorem hasField_between {first : Bool} {b : List Char} (hb : Between first b) (cs : List Char) :
    hasField first (b ++ '"' :: cs) = .ok (true, cs) :=
  hasNext_between (by decide) hb (by decide) (by decide) rfl

theorem colon_blanks {b : List Char} (hb : Blanks b) (rest : List Char) :
    colon (b ++ ':' :: rest) = .ok ((), rest) := by
  rw [colon, bind_ok (token?_blanks hb (by decide) _)]
  rfl

theorem Digits.length_lt {ds cs rest : List Char} (h : Digits ds cs rest) :
    rest.length < cs.length := by
  obtain ⟨rfl, hne, -, -⟩ := h
  have hpos := List.length_pos_iff.mpr hne
  rw [List.length_append]
  omega

theorem Fraction.length_le {frac : Option (List Char)} {cs rest : List Char}
    (h : Fraction frac cs rest) : rest.length ≤ cs.length := by
  cases h with
  | absent _ => exact Nat.le_refl _
  | present hds => exact Nat.le_of_lt (Nat.lt_succ_of_lt hds.length_lt)

theorem Exponent.length_le {exp : List Char × Int} {cs rest : List Char}
    (h : Exponent exp cs rest) : rest.length ≤ cs.length := by
  cases h with
  | absent _ _ => exact Nat.le_refl _
  | bare _ hds | plus _ hds | minus _ hds =>
    have hlength := hds.length_lt
    simp only [List.length_cons]
    omega

theorem Magnitude.length_lt {m cs rest : List Char} (h : Magnitude m cs rest) :
    rest.length < cs.length := by
  obtain ⟨hwhole, -, hfrac, hexp, -⟩ := h
  exact (hexp.length_le.trans hfrac.length_le).trans_lt hwhole.length_lt

theorem Numeral.length_lt {m cs rest : List Char} (h : Numeral m cs rest) :
    rest.length < cs.length := by
  cases h with
  | positive hm => exact hm.length_lt
  | negative hm => exact Nat.lt_succ_of_lt hm.length_lt

mutual

theorem Written.length_lt {v : Json} {cs rest : List Char} (h : Written v cs rest) :
    rest.length < cs.length := by
  cases h with
  | null | yes | no =>
    simp only [List.length_cons]
    omega
  | number hm => exact hm.length_lt
  | string hs =>
    have := hs.length_lt
    simp only [List.length_cons]
    omega
  | array hi => exact Nat.lt_succ_of_lt hi.length_lt
  | object hf => exact Nat.lt_succ_of_lt hf.length_lt

theorem WrittenItems.length_lt {first : Bool} {vs : List Json} {cs rest : List Char}
    (h : WrittenItems first vs cs rest) : rest.length < cs.length := by
  cases h with
  | close hb =>
    simp only [List.length_append, List.length_cons]
    omega
  | item hb hv hi =>
    have hv := hv.length_lt
    have hi := hi.length_lt
    simp only [List.length_append]
    omega

theorem WrittenFields.length_lt {first : Bool} {fs : List (String × Json)} {cs rest : List Char}
    (h : WrittenFields first fs cs rest) : rest.length < cs.length := by
  cases h with
  | close hb =>
    simp only [List.length_append, List.length_cons]
    omega
  | field hb hk hb' hb'' hv hf =>
    have hk := hk.length_lt
    have hv := hv.length_lt
    have hf := hf.length_lt
    simp only [List.length_append, List.length_cons] at hk ⊢
    omega

end

mutual

theorem Written.value_eq_ok {v : Json} {cs rest : List Char} (h : Written v cs rest)
    {b : List Char} (hb : Blanks b) {room : Nat} (hroom : v.depth ≤ room) :
    value room (b ++ cs) = .ok (v, rest) := by
  obtain ⟨d, ds, rfl, hd, -⟩ := h.head
  rw [value_behind hb hd]
  cases h with
  | null | yes | no => exact (value_scalar (by decide) (by decide) room _).trans rfl
  | number hm =>
    obtain ⟨d', ds', heq, -, hne, hscalar⟩ := scalar_number hm
    cases heq
    simp only [List.mem_cons, not_or] at hne
    rw [value_scalar hd (by simp [hne]), hscalar]
  | string hs =>
    rw [value_scalar (by decide) (by decide)]
    show (skip >>= fun _ => stringBody >>= _) _ = _
    rw [skip_bind, bind_ok (stringBody_eq_ok_iff.mpr ⟨_, rfl, hs⟩)]
    rfl
  | array hi =>
    obtain _ | room := room
    · simp [depth] at hroom
    · rw [depth, Nat.add_le_add_iff_right] at hroom
      have hitems := hi.items_eq_ok hroom (Nat.lt_succ_self _)
      rw [value_array, bind_ok hitems]
      rfl
  | object hf =>
    obtain _ | room := room
    · simp [depth] at hroom
    · rw [depth, Nat.add_le_add_iff_right] at hroom
      have hfields := hf.fields_eq_ok hroom (Nat.lt_succ_self _)
      rw [value_object, bind_ok hfields]
      rfl

theorem WrittenItems.items_eq_ok {first : Bool} {vs : List Json} {cs rest : List Char}
    (h : WrittenItems first vs cs rest) {room fuel : Nat} (hroom : itemsDepth vs ≤ room)
    (hfuel : cs.length < fuel) : items (value room) fuel first cs = .ok (vs, rest) := by
  obtain _ | fuel := fuel
  · cases hfuel
  cases h with
  | close hb =>
    rw [items, hasItem, bind_ok (hasNext_end startItem (by decide) first hb rest)]
    rfl
  | item hb hv hi =>
    obtain ⟨hvroom, hiroom⟩ := Nat.max_le.mp hroom
    have hlength := hv.length_lt
    simp only [List.length_append] at hfuel
    have hvalue := hv.value_eq_ok blanks_nil hvroom
    have hitems := hi.items_eq_ok hiroom (show _ < fuel by omega)
    rw [List.nil_append] at hvalue
    rw [items, bind_ok (hasItem_between hb hv), if_pos rfl, bind_ok hvalue, bind_ok hitems]
    rfl

theorem WrittenFields.fields_eq_ok {first : Bool} {fs : List (String × Json)}
    {cs rest : List Char} (h : WrittenFields first fs cs rest) {room fuel : Nat}
    (hroom : fieldsDepth fs ≤ room) (hfuel : cs.length < fuel) :
    fields (value room) fuel first cs = .ok (fs, rest) := by
  obtain _ | fuel := fuel
  · cases hfuel
  cases h with
  | close hb =>
    rw [fields, hasField, bind_ok (hasNext_end startField (by decide) first hb rest)]
    rfl
  | field hb hk hb' hb'' hv hf =>
    obtain ⟨hvroom, hfroom⟩ := Nat.max_le.mp hroom
    have hname := hk.length_lt
    have hlength := hv.length_lt
    simp only [List.length_append, List.length_cons] at hname hfuel
    have hvalue := hv.value_eq_ok hb'' hvroom
    have hfields := hf.fields_eq_ok hfroom (show _ < fuel by omega)
    rw [fields, bind_ok (hasField_between hb _), if_pos rfl,
      bind_ok (stringBody_eq_ok_iff.mpr ⟨_, rfl, hk⟩), bind_ok (colon_blanks hb' _),
      bind_ok hvalue, bind_ok hfields]
    rfl

end

/-! Whole texts. -/

/-- The text spells the value, with blanks in front and behind. -/
def Spells (v : Json) (text : String) : Prop :=
  ∃ b cs b', Blanks b ∧ text.toList = b ++ cs ∧ Written v cs b' ∧ Blanks b'

/-- Only blanks may stand behind the value of a text. -/
theorem finish_eq_ok_iff {cs rest : List Char} :
    finish cs = .ok ((), rest) ↔ Blanks cs ∧ rest = [] := by
  constructor
  · intro h
    rw [finish, bind_eq_ok] at h
    obtain ⟨c?, cs₁, htoken, h⟩ := h
    obtain ⟨⟨b, hb, rfl⟩, hhead, -⟩ := token?_eq_ok htoken
    split at h
    · obtain ⟨-, rfl⟩ := pure_eq_ok.mp h
      obtain rfl := List.head?_eq_none_iff.mp hhead.symm
      exact ⟨by rwa [List.append_nil], rfl⟩
    · cases h
  · rintro ⟨hb, rfl⟩
    have htoken : token? cs = .ok (none, []) := by
      show Except.ok ((cs.dropWhile isBlank).head?, cs.dropWhile isBlank) = _
      rw [List.dropWhile_eq_nil_iff.mpr hb]
      rfl
    rw [finish, bind_ok htoken]
    rfl

theorem parse_eq_ok {text : String} {v : Json} :
    parse text = .ok v ↔ ∃ rest, value maxDepth text.toList = .ok (v, rest) ∧ Blanks rest := by
  have hrun : parse text = .ok v ↔ ∃ rest,
      (do let v ← value maxDepth; finish; pure v : Reader Json) text.toList = .ok (v, rest) := by
    show Prod.fst <$> (_ : Except Fault (Json × List Char)) = _ ↔ _
    generalize (do let v ← value maxDepth; finish; pure v : Reader Json) text.toList = read
    cases read with
    | error fault => exact ⟨nofun, nofun⟩
    | ok r =>
      constructor
      · rintro ⟨⟩
        exact ⟨r.2, rfl⟩
      · rintro ⟨rest, ⟨⟩⟩
        rfl
  rw [hrun]
  constructor
  · rintro ⟨rest, h⟩
    rw [bind_eq_ok] at h
    obtain ⟨v', cs₁, hvalue, h⟩ := h
    rw [bind_eq_ok] at h
    obtain ⟨_, cs₂, hfinish, h⟩ := h
    obtain ⟨rfl, rfl⟩ := pure_eq_ok.mp h
    exact ⟨cs₁, hvalue, (finish_eq_ok_iff.mp hfinish).1⟩
  · rintro ⟨rest, hvalue, hb⟩
    refine ⟨[], ?_⟩
    rw [bind_ok hvalue, bind_ok (finish_eq_ok_iff.mpr ⟨hb, rfl⟩)]
    rfl

/-- A text is read as a value exactly if it spells the value, and the value nests no deeper than
there is room for. -/
theorem parse_eq_ok_iff {text : String} {v : Json} :
    parse text = .ok v ↔ Spells v text ∧ v.depth ≤ maxDepth := by
  rw [parse_eq_ok]
  constructor
  · rintro ⟨rest, hvalue, hrest⟩
    obtain ⟨⟨b, cs, hb, htext, hwritten⟩, hdepth⟩ := readsWritten_value maxDepth hvalue
    exact ⟨⟨b, cs, rest, hb, htext, hwritten, hrest⟩, hdepth⟩
  · rintro ⟨⟨b, cs, rest, hb, htext, hwritten, hrest⟩, hdepth⟩
    exact ⟨rest, htext ▸ hwritten.value_eq_ok hb hdepth, hrest⟩

/-- A text spells one value. -/
theorem Spells.unique {v v' : Json} {text : String} (h : Spells v text) (h' : Spells v' text) :
    v = v' := by
  obtain ⟨b, cs, rest, hb, htext, hwritten, -⟩ := h
  obtain ⟨b', cs', rest', hb', htext', hwritten', -⟩ := h'
  have hread := hwritten.value_eq_ok hb (Nat.le_max_left v.depth v'.depth)
  have hread' := hwritten'.value_eq_ok hb' (Nat.le_max_right v.depth v'.depth)
  rw [← htext] at hread
  rw [← htext', hread] at hread'
  cases hread'
  rfl

end ApiSurface.Json
