import ApiSurface.Proofs.JsonGrammar

/-! Reading printed JSON text back. Both printed forms spell their value, with blanks between the
tokens, and what spells a value is read as that value, as long as it nests no deeper than there is
room for. -/
namespace ApiSurface.Json
open Reader

/-! Strings. -/

theorem hexValue?_hexDigit : ∀ n < 16, hexValue? (hexDigit n) = some n := by decide

/-- A control character is written by its number. -/
theorem unit16_hexDigits {n : Nat} (h : n < 32) (rest : List Char) :
    Unit16 n ('0' :: '0' :: hexDigit (n / 16) :: hexDigit (n % 16) :: rest) rest := by
  have hzero : hexValue? '0' = some 0 := by decide
  have hhigh := hexValue?_hexDigit (n / 16) (by omega)
  have hlow := hexValue?_hexDigit (n % 16) (by omega)
  have hn : ((0 * 16 + 0) * 16 + n / 16) * 16 + n % 16 = n := by omega
  exact @Eq.subst _ (Unit16 · _ rest) _ _ hn (.mk hzero hzero hhigh hlow)

/-- Behind a backslash the escape of a character stands for it. -/
theorem escaped_of_escapeChar {c : Char} {es : List Char} (h : escapeChar c = '\\' :: es)
    (rest : List Char) : Escaped c (es ++ rest) rest := by
  have hcode {n : Nat} (hn : c.toNat = n) : c = Char.ofNat n := by rw [← hn, Char.ofNat_toNat]
  unfold escapeChar at h
  split_ifs at h with hquote hslash hfeed hreturn htab hback hform hcontrol
  · cases h
    subst hquote
    exact .short (by decide)
  · cases h
    subst hslash
    exact .short (by decide)
  · cases h
    subst hfeed
    exact .short (by decide)
  · cases h
    subst hreturn
    exact .short (by decide)
  · cases h
    subst htab
    exact .short (by decide)
  · cases h
    rw [hcode hback]
    exact .short (by decide)
  · cases h
    rw [hcode hform]
    exact .short (by decide)
  · cases h
    have hunit := Unicode.unit (unit16_hexDigits hcontrol rest) (by omega)
    rw [Char.ofNat_toNat] at hunit
    exact .unicode hunit
  · cases h
    exact absurd rfl hslash

/-- The escape of a character opens with a backslash, or it is the character itself. -/
theorem escapeChar_cases (c : Char) :
    (∃ es, escapeChar c = '\\' :: es) ∨
      escapeChar c = [c] ∧ c ≠ '"' ∧ c ≠ '\\' ∧ ¬ c.toNat < 32 := by
  unfold escapeChar
  split_ifs with h₁ h₂ h₃ h₄ h₅ h₆ h₇ h₈
  all_goals first | exact .inl ⟨_, rfl⟩ | exact .inr ⟨rfl, h₁, h₂, h₈⟩

theorem quoted_flatMap (s rest : List Char) :
    Quoted s (s.flatMap escapeChar ++ '"' :: rest) rest := by
  induction s with
  | nil => exact .close
  | cons c s ih =>
    rw [List.flatMap_cons, List.append_assoc]
    obtain ⟨es, he⟩ | ⟨he, hquote, hslash, hcontrol⟩ := escapeChar_cases c
    · rw [he]
      exact .escaped (escaped_of_escapeChar he _) ih
    · rw [he]
      exact .plain hquote hslash (Nat.le_of_not_lt hcontrol) ih

theorem quote_append (k : String) (cs : List Char) :
    quote k ++ cs = '"' :: (k.toList.flatMap escapeChar ++ '"' :: cs) := by
  simp [quote]

/-! Spellings. -/

mutual

/-- A text that spells a value in which no number is. -/
inductive Spelled : Json → List Char → Prop
  | null : Spelled .null ['n', 'u', 'l', 'l']
  | yes : Spelled (.bool true) ['t', 'r', 'u', 'e']
  | no : Spelled (.bool false) ['f', 'a', 'l', 's', 'e']
  | string (s : String) : Spelled (.string s) (quote s)
  | array {vs : List Json} {cs : List Char} (items : SpelledItems true vs cs) :
      Spelled (.array vs) ('[' :: cs)
  | object {fs : List (String × Json)} {cs : List Char} (fields : SpelledFields true fs cs) :
      Spelled (.object fs) ('\x7b' :: cs)

/-- The items of an array up to its closing bracket; all but the first have a comma in front. -/
inductive SpelledItems : Bool → List Json → List Char → Prop
  | nil {first : Bool} {b : List Char} (blanks : Blanks b) : SpelledItems first [] (b ++ [']'])
  | first {v : Json} {vs : List Json} {b c cs : List Char} (blanks : Blanks b) (value : Spelled v c)
      (items : SpelledItems false vs cs) : SpelledItems true (v :: vs) (b ++ (c ++ cs))
  | next {v : Json} {vs : List Json} {b b' c cs : List Char} (blanks : Blanks b)
      (blanks' : Blanks b') (value : Spelled v c) (items : SpelledItems false vs cs) :
      SpelledItems false (v :: vs) (b ++ ',' :: (b' ++ (c ++ cs)))

/-- The fields of an object up to its closing brace. -/
inductive SpelledFields : Bool → List (String × Json) → List Char → Prop
  | nil {first : Bool} {b : List Char} (blanks : Blanks b) :
      SpelledFields first [] (b ++ ['\x7d'])
  | first {k : String} {v : Json} {fs : List (String × Json)} {b b' b'' c cs : List Char}
      (blanks : Blanks b) (blanks' : Blanks b') (blanks'' : Blanks b'') (value : Spelled v c)
      (fields : SpelledFields false fs cs) :
      SpelledFields true ((k, v) :: fs) (b ++ (quote k ++ (b' ++ ':' :: (b'' ++ (c ++ cs)))))
  | next {k : String} {v : Json} {fs : List (String × Json)} {a b b' b'' c cs : List Char}
      (blanks₀ : Blanks a) (blanks : Blanks b) (blanks' : Blanks b') (blanks'' : Blanks b'')
      (value : Spelled v c) (fields : SpelledFields false fs cs) :
      SpelledFields false ((k, v) :: fs)
        (a ++ ',' :: (b ++ (quote k ++ (b' ++ ':' :: (b'' ++ (c ++ cs))))))

end

/-! What is spelled is written, whatever comes behind it. -/

mutual

theorem Spelled.written {v : Json} {c : List Char} (h : Spelled v c) (rest : List Char) :
    Written v (c ++ rest) rest := by
  cases h with
  | null => exact .null
  | yes => exact .yes
  | no => exact .no
  | string s =>
    have hs := Written.string (quoted_flatMap s.toList rest)
    rwa [String.ofList_toList, ← quote_append] at hs
  | array items => exact .array (items.written rest)
  | object fields => exact .object (fields.written rest)

theorem SpelledItems.written {first : Bool} {vs : List Json} {cs : List Char}
    (h : SpelledItems first vs cs) (rest : List Char) :
    WrittenItems first vs (cs ++ rest) rest := by
  cases h with
  | nil hb =>
    rw [List.append_assoc]
    exact .close hb
  | first hb hv hi =>
    have hitem := WrittenItems.item (.first hb) (hv.written _) (hi.written rest)
    simpa only [List.append_assoc] using hitem
  | next hb hb' hv hi =>
    have hitem := WrittenItems.item (.next hb hb') (hv.written _) (hi.written rest)
    simpa only [List.append_assoc, List.cons_append] using hitem

theorem SpelledFields.written {first : Bool} {fs : List (String × Json)} {cs : List Char}
    (h : SpelledFields first fs cs) (rest : List Char) :
    WrittenFields first fs (cs ++ rest) rest := by
  cases h with
  | nil hb =>
    rw [List.append_assoc]
    exact .close hb
  | @first k v fs b b' b'' c cs hb hb' hb'' hv hf =>
    have hfield := WrittenFields.field (.first hb) (quoted_flatMap k.toList _) hb' hb''
      (hv.written _) (hf.written rest)
    rw [String.ofList_toList, ← quote_append] at hfield
    simpa only [List.append_assoc, List.cons_append] using hfield
  | @next k v fs a b b' b'' c cs ha hb hb' hb'' hv hf =>
    have hfield := WrittenFields.field (.next ha hb) (quoted_flatMap k.toList _) hb' hb''
      (hv.written _) (hf.written rest)
    rw [String.ofList_toList, ← quote_append] at hfield
    simpa only [List.append_assoc, List.cons_append] using hfield

end

/-- A whole text that spells a value, with blanks behind it, is read as the value. -/
theorem parse_spelled_blanks {v : Json} {c b : List Char} (h : Spelled v c)
    (hd : v.depth ≤ maxDepth) (hb : Blanks b) : parse (String.ofList (c ++ b)) = .ok v :=
  parse_eq_ok_iff.mpr
    ⟨⟨[], c ++ b, b, blanks_nil, String.toList_ofList, h.written b, hb⟩, hd⟩

theorem blanks_lineFeed : Blanks ['\n'] := by simp [Blanks, isBlank]

/-- A whole text that spells a value is read as it. -/
theorem parse_spelled {v : Json} {c : List Char} (h : Spelled v c) (hd : v.depth ≤ maxDepth) :
    parse (String.ofList c) = .ok v := by
  have hv := parse_spelled_blanks h hd blanks_nil
  rwa [List.append_nil] at hv

/-! The printed forms. -/

mutual

/-- No number is part of the value. -/
def Numberless : Json → Prop
  | number _ => False
  | array vs => NumberlessItems vs
  | object fs => NumberlessFields fs
  | _ => True

def NumberlessItems : List Json → Prop
  | [] => True
  | v :: vs => Numberless v ∧ NumberlessItems vs

def NumberlessFields : List (String × Json) → Prop
  | [] => True
  | (_, v) :: fs => Numberless v ∧ NumberlessFields fs

end

theorem blanks_space : Blanks [' '] := by simp [Blanks, isBlank]

theorem blanks_indent (n : Nat) : Blanks (indent n) := by
  intro c hc
  obtain rfl | hc := List.mem_cons.1 hc
  · rfl
  · rw [List.eq_of_mem_replicate hc]
    rfl

mutual

theorem spelled_compactChars {v : Json} (h : v.Numberless) : Spelled v (compactChars v) := by
  match v with
  | null => exact .null
  | bool true => exact .yes
  | bool false => exact .no
  | string s => exact .string s
  | number _ => exact h.elim
  | array [] => exact .array (.nil blanks_nil)
  | array (v :: vs) =>
    exact .array (.first blanks_nil (spelled_compactChars h.1) (spelledItems_compactItems h.2))
  | object [] => exact .object (.nil blanks_nil)
  | object ((k, v) :: fs) =>
    have hv := spelled_compactChars (v := v) h.1
    exact .object (.first blanks_nil blanks_nil blanks_nil hv (spelledFields_compactFields h.2))

theorem spelledItems_compactItems {vs : List Json} (h : NumberlessItems vs) :
    SpelledItems false vs (compactItems vs) := by
  match vs with
  | [] => exact .nil blanks_nil
  | v :: vs =>
    exact .next blanks_nil blanks_nil (spelled_compactChars h.1) (spelledItems_compactItems h.2)

theorem spelledFields_compactFields {fs : List (String × Json)} (h : NumberlessFields fs) :
    SpelledFields false fs (compactFields fs) := by
  match fs with
  | [] => exact .nil blanks_nil
  | (k, v) :: fs =>
    have hv := spelled_compactChars (v := v) h.1
    exact .next blanks_nil blanks_nil blanks_nil blanks_nil hv (spelledFields_compactFields h.2)

end

mutual

theorem spelled_prettyChars {v : Json} (h : v.Numberless) (n : Nat) :
    Spelled v (prettyChars n v) := by
  match v with
  | null => exact .null
  | bool true => exact .yes
  | bool false => exact .no
  | string s => exact .string s
  | number _ => exact h.elim
  | array [] => exact .array (.nil blanks_nil)
  | array (v :: vs) =>
    exact .array (.first (blanks_indent _) (spelled_prettyChars h.1 _)
      (spelledItems_prettyItems h.2 n))
  | object [] => exact .object (.nil blanks_nil)
  | object ((k, v) :: fs) =>
    have hv := spelled_prettyChars (v := v) h.1 (n + 1)
    exact .object (.first (blanks_indent _) blanks_nil blanks_space hv
      (spelledFields_prettyFields h.2 n))

theorem spelledItems_prettyItems {vs : List Json} (h : NumberlessItems vs) (n : Nat) :
    SpelledItems false vs (prettyItems n vs) := by
  match vs with
  | [] => exact .nil (blanks_indent n)
  | v :: vs =>
    exact .next blanks_nil (blanks_indent _) (spelled_prettyChars h.1 _)
      (spelledItems_prettyItems h.2 n)

theorem spelledFields_prettyFields {fs : List (String × Json)} (h : NumberlessFields fs)
    (n : Nat) : SpelledFields false fs (prettyFields n fs) := by
  match fs with
  | [] => exact .nil (blanks_indent n)
  | (k, v) :: fs =>
    have hv := spelled_prettyChars (v := v) h.1 (n + 1)
    exact .next blanks_nil (blanks_indent _) blanks_nil blanks_space hv
      (spelledFields_prettyFields h.2 n)

end

/-- Both printed forms of a value are read as the value. -/
theorem parse_printed {v : Json} (h : v.Numberless) (hd : v.depth ≤ maxDepth) :
    parse v.compact = .ok v ∧ parse v.pretty = .ok v :=
  ⟨parse_spelled (spelled_compactChars h) hd, parse_spelled (spelled_prettyChars h 0) hd⟩

end ApiSurface.Json
