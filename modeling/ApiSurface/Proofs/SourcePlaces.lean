import ApiSurface.Proofs.MethodTexts
import ApiSurface.Proofs.RelaidSources

/-! Places in source texts. Later characters stand at later places, and whoever skips the lines in
front of the line of a place and then the characters in front of its column is back at the
character. A construct that is refused starts with a token, so it is refused at the place of one
character of the text, and the message tells which one. -/
namespace ApiSurface
open Source

/-- A text is one line, or a line with a text behind its line break. -/
theorem lines_induction {P : List Char → Prop} (last : ∀ line, '\n' ∉ line → P line)
    (cons : ∀ line text, '\n' ∉ line → P text → P (line ++ '\n' :: text)) (text : List Char) :
    P text := by
  -- the induction is on what stands behind the part of the first line that is read already
  have behind (front : List Char) (hfront : '\n' ∉ front) : P (front ++ text) := by
    induction text generalizing front with
    | nil => exact last _ (by simpa using hfront)
    | cons c text ih =>
      by_cases hc : c = '\n'
      · exact hc ▸ cons front text hfront (ih [] List.not_mem_nil)
      · simpa using ih (front ++ [c]) (by simpa [hfront] using Ne.symm hc)
  exact behind [] List.not_mem_nil

namespace Location

/-! Places are ordered by their lines and, in one line, by their columns. -/

instance : LT Location where
  lt l m := l.line < m.line ∨ l.line = m.line ∧ l.column < m.column

theorem lt_iff {l m : Location} :
    l < m ↔ l.line < m.line ∨ l.line = m.line ∧ l.column < m.column := Iff.rfl

theorem lt_irrefl (l : Location) : ¬l < l := by simp [lt_iff]

theorem lt_trans {l m n : Location} (hlm : l < m) (hmn : m < n) : l < n := by
  rw [lt_iff] at *
  omega

theorem lt_step (l : Location) (c : Char) : l < l.step c := by
  unfold step
  split
  · exact .inl (Nat.lt_succ_self _)
  · exact .inr ⟨rfl, Nat.lt_succ_self _⟩

theorem lt_foldl_step {cs : List Char} (hcs : cs ≠ []) (l : Location) : l < cs.foldl step l := by
  induction cs generalizing l with
  | nil => exact absurd rfl hcs
  | cons c cs ih =>
    obtain rfl | hcs := eq_or_ne cs []
    · exact lt_step l c
    · exact lt_trans (lt_step l c) (ih hcs _)

theorem ofOffset_lt_ofOffset {text : List Char} {p q : Nat} (hpq : p < q)
    (hq : q ≤ text.length) : ofOffset text p < ofOffset text q := by
  have hfront : (text.take q).take p = text.take p := by
    rw [List.take_take, Nat.min_eq_left hpq.le]
  have hbetween : (text.take q).drop p ≠ [] := by
    rw [Ne, List.drop_eq_nil_iff, List.length_take]
    omega
  have hsplit : text.take q = text.take p ++ (text.take q).drop p := by
    rw [← hfront, List.take_append_drop]
  rw [ofOffset, ofOffset, hsplit, List.foldl_append]
  exact lt_foldl_step hbetween _

theorem ofOffset_injective {text : List Char} {p q : Nat} (hp : p ≤ text.length)
    (hq : q ≤ text.length) (h : ofOffset text p = ofOffset text q) : p = q := by
  obtain hlt | heq | hlt := lt_trichotomy p q
  · exact absurd (h ▸ ofOffset_lt_ofOffset hlt hq) (lt_irrefl _)
  · exact heq
  · exact absurd (h ▸ ofOffset_lt_ofOffset hlt hp) (lt_irrefl _)

/-! Positions may be counted in bytes as well. -/

/-- How many bytes a text takes in UTF-8. -/
def byteLength (text : List Char) : Nat := (text.map Char.utf8Size).sum

/-- The place of the character that a byte belongs to, seen from the place where the text starts. -/
def walkBytes (l : Location) : List Char → Nat → Location
  | [], _ => l
  | c :: cs, b => if b < c.utf8Size then l else walkBytes (l.step c) cs (b - c.utf8Size)

def ofByte (text : List Char) (b : Nat) : Location := walkBytes start text b

theorem walkBytes_byteLength (l : Location) (text : List Char) (p : Nat) :
    walkBytes l text (byteLength (text.take p)) = (text.take p).foldl step l := by
  induction text generalizing l p with
  | nil => rw [List.take_nil]; rfl
  | cons c cs ih =>
    cases p with
    | zero => exact if_pos c.utf8Size_pos
    | succ p =>
      have hbytes : byteLength ((c :: cs).take (p + 1)) =
          c.utf8Size + byteLength (cs.take p) := by
        simp [byteLength]
      rw [hbytes, walkBytes, if_neg (by omega), Nat.add_sub_cancel_left, ih]
      rfl

/-- The byte at which a character starts has the place of the character. -/
theorem ofByte_byteLength (text : List Char) (p : Nat) :
    ofByte text (byteLength (text.take p)) = ofOffset text p := walkBytes_byteLength start text p

/-! Lines of a text, and what stands in them. -/

/-- The text behind so many line breaks. -/
def skipLines : Nat → List Char → List Char
  | 0, text => text
  | n + 1, text => skipLines n ((text.dropWhile (· ≠ '\n')).drop 1)

/-- The text behind a place: the lines before its own are skipped, and then the characters before
its column. -/
def rest (text : List Char) (l : Location) : List Char :=
  (skipLines (l.line - 1) text).drop l.column

/-- The line of a place, without its line break. -/
def line? (text : List Char) (l : Location) : Option (List Char) :=
  (text.splitOn '\n')[l.line - 1]?

/-- The character of a line that stands at a place. -/
def char? (text : List Char) (l : Location) : Option Char :=
  (line? text l).bind (·[l.column]?)

/-- A place in one of the lines of a text, or at the end of one. -/
structure Within (text : List Char) (l : Location) : Prop where
  one_le_line : 1 ≤ l.line
  line_le : l.line ≤ text.count '\n' + 1
  column_le : ∃ line, line? text l = some line ∧ l.column ≤ line.length

section Lines

variable {line text : List Char} {l : Location} {p : Nat}

theorem foldl_step_of_not_mem (hline : '\n' ∉ line) (l : Location) :
    line.foldl step l = ⟨l.line, l.column + line.length⟩ := by
  induction line generalizing l with
  | nil => rfl
  | cons c line ih =>
    obtain ⟨hc, hline⟩ : c ≠ '\n' ∧ '\n' ∉ line := by simpa [eq_comm] using hline
    rw [List.foldl_cons, ih hline, step, if_neg hc, List.length_cons, Nat.add_assoc, Nat.add_comm 1]

theorem ofOffset_of_le (hline : '\n' ∉ line) (hp : p ≤ line.length) (behind : List Char) :
    ofOffset (line ++ behind) p = ⟨1, p⟩ := by
  have hfront : '\n' ∉ line.take p := fun h => hline (List.mem_of_mem_take h)
  rw [ofOffset, List.take_append_of_le_length hp, foldl_step_of_not_mem hfront, List.length_take,
    Nat.min_eq_left hp]
  simp [start]

theorem ofOffset_only (hline : '\n' ∉ line) (hp : p ≤ line.length) :
    ofOffset line p = ⟨1, p⟩ := by
  simpa using ofOffset_of_le hline hp []

/-- A position behind the first line and its line break is one in the text behind them. -/
theorem exists_of_length_lt (hp : line.length < p) (hle : p ≤ (line ++ '\n' :: text).length) :
    ∃ o ≤ text.length, p = o + (line.length + 1) := by
  rw [List.length_append, List.length_cons] at hle
  exact ⟨p - (line.length + 1), by omega, by omega⟩

theorem ofOffset_behind (hline : '\n' ∉ line) (text : List Char) (o : Nat) :
    ofOffset (line ++ '\n' :: text) (o + (line.length + 1)) = (ofOffset text o).lower 1 := by
  rw [ofOffset_append, List.count_eq_zero_of_not_mem hline]

theorem one_le_line_ofOffset (text : List Char) (p : Nat) : 1 ≤ (ofOffset text p).line := by
  rw [ofOffset, line_foldl_step]
  exact Nat.le_add_right _ _

theorem rest_lower (hline : '\n' ∉ line) (hl : 1 ≤ l.line) :
    rest (line ++ '\n' :: text) (l.lower 1) = rest text l := by
  have hskip : (line ++ '\n' :: text).dropWhile (· ≠ '\n') = '\n' :: text := by
    rw [List.dropWhile_append_of_pos fun c hc => by simpa using ne_of_mem_of_not_mem hc hline]
    rfl
  obtain ⟨n, hn⟩ := Nat.exists_eq_add_of_le' hl
  rw [rest, rest, lower, hn, Nat.add_sub_cancel, Nat.add_sub_cancel, skipLines, hskip]
  rfl

theorem line?_lower (hline : '\n' ∉ line) (hl : 1 ≤ l.line) :
    line? (line ++ '\n' :: text) (l.lower 1) = line? text l := by
  obtain ⟨n, hn⟩ := Nat.exists_eq_add_of_le' hl
  rw [line?, line?, List.splitOn_append_cons_self, List.splitOn_eq_singleton hline, lower, hn]
  rfl

theorem char?_lower (hline : '\n' ∉ line) (hl : 1 ≤ l.line) :
    char? (line ++ '\n' :: text) (l.lower 1) = char? text l := by
  rw [char?, char?, line?_lower hline hl]
  rfl

theorem line?_first (hline : '\n' ∉ line) (hl : l.line = 1) (text : List Char) :
    line? (line ++ '\n' :: text) l = some line := by
  rw [line?, List.splitOn_append_cons_self, List.splitOn_eq_singleton hline, hl]
  rfl

theorem line?_only (hline : '\n' ∉ line) (hl : l.line = 1) : line? line l = some line := by
  rw [line?, List.splitOn_eq_singleton hline, hl]
  rfl

theorem within_only_iff (hline : '\n' ∉ line) :
    l.Within line ↔ l.line = 1 ∧ l.column ≤ line.length := by
  constructor
  · rintro ⟨hl, hle, _, hline?, hcolumn⟩
    rw [List.count_eq_zero_of_not_mem hline] at hle
    have hl : l.line = 1 := Nat.le_antisymm hle hl
    rw [line?_only hline hl] at hline?
    exact ⟨hl, Option.some.inj hline? ▸ hcolumn⟩
  · rintro ⟨hl, hcolumn⟩
    exact ⟨hl.ge, by omega, line, line?_only hline hl, hcolumn⟩

theorem within_cons_iff (hline : '\n' ∉ line) :
    l.Within (line ++ '\n' :: text) ↔
      l.line = 1 ∧ l.column ≤ line.length ∨ ∃ m : Location, m.Within text ∧ l = m.lower 1 := by
  have hcount : (line ++ '\n' :: text).count '\n' = text.count '\n' + 1 := by
    rw [List.count_append, List.count_eq_zero_of_not_mem hline, List.count_cons_self, Nat.zero_add]
  constructor
  · rintro ⟨hl, hle, line', hline?, hcolumn⟩
    obtain hfirst | hlater := hl.eq_or_lt
    · rw [line?_first hline hfirst.symm] at hline?
      exact .inl ⟨hfirst.symm, Option.some.inj hline? ▸ hcolumn⟩
    · obtain ⟨n, hn⟩ : ∃ n, l.line = n + 1 := ⟨l.line - 1, by omega⟩
      have hlower : l = lower ⟨n, l.column⟩ 1 := by rw [lower, ← hn]
      have hpos : 1 ≤ n := by omega
      rw [hlower, line?_lower hline hpos] at hline?
      exact .inr ⟨_, ⟨hpos, by dsimp only; omega, line', hline?, hcolumn⟩, hlower⟩
  · rintro (⟨hl, hcolumn⟩ | ⟨m, ⟨hm, hle, line', hline?, hcolumn⟩, rfl⟩)
    · exact ⟨hl.ge, by omega, line, line?_first hline hl text, hcolumn⟩
    · exact ⟨Nat.le_add_left _ _, by rw [hcount]; exact Nat.succ_le_succ hle, line',
        (line?_lower hline hm).trans hline?, hcolumn⟩

end Lines

/-! Places and what stands there. -/

/-- Skipping leads back to the character. -/
theorem rest_ofOffset {text : List Char} {p : Nat} (hp : p ≤ text.length) :
    (ofOffset text p).rest text = text.drop p := by
  induction text using lines_induction generalizing p with
  | last line hline =>
    rw [ofOffset_only hline hp]
    rfl
  | cons line text hline ih =>
    obtain hfirst | hlater := le_or_gt p line.length
    · rw [ofOffset_of_le hline hfirst]
      rfl
    · obtain ⟨o, ho, rfl⟩ := exists_of_length_lt hlater hp
      rw [ofOffset_behind hline, rest_lower hline (one_le_line_ofOffset _ _), ih ho,
        Nat.add_comm o, Nat.add_assoc, List.drop_length_add_append, Nat.add_comm 1,
        List.drop_succ_cons]

example : (mk 3 2).rest "\n\r\n\u3000 x".toList = ['x'] := by decide

/-- The places in the lines of a text are those of its characters and of its end. -/
theorem within_iff_exists {text : List Char} {l : Location} :
    l.Within text ↔ ∃ p ≤ text.length, ofOffset text p = l := by
  induction text using lines_induction generalizing l with
  | last line hline =>
    rw [within_only_iff hline]
    constructor
    · rintro ⟨hl, hcolumn⟩
      exact ⟨l.column, hcolumn, by rw [ofOffset_only hline hcolumn, ← hl]⟩
    · rintro ⟨p, hp, rfl⟩
      rw [ofOffset_only hline hp]
      exact ⟨rfl, hp⟩
  | cons line text hline ih =>
    have hlength : (line ++ '\n' :: text).length = text.length + (line.length + 1) := by
      rw [List.length_append, List.length_cons]
      omega
    rw [within_cons_iff hline, hlength]
    constructor
    · rintro (⟨hl, hcolumn⟩ | ⟨m, hm, rfl⟩)
      · exact ⟨l.column, by omega, by rw [ofOffset_of_le hline hcolumn, ← hl]⟩
      · obtain ⟨o, ho, rfl⟩ := ih.1 hm
        exact ⟨o + (line.length + 1), by omega, ofOffset_behind hline text o⟩
    · rintro ⟨p, hp, rfl⟩
      obtain hfirst | hlater := le_or_gt p line.length
      · rw [ofOffset_of_le hline hfirst]
        exact .inl ⟨rfl, hfirst⟩
      · obtain ⟨o, ho, rfl⟩ := exists_of_length_lt hlater (hlength ▸ hp)
        exact .inr ⟨_, ih.2 ⟨o, ho, rfl⟩, ofOffset_behind hline text o⟩

/-- A character that ends no line stands in the line and at the column of its place. -/
theorem char?_ofOffset {text : List Char} {p : Nat} {c : Char} (hp : text[p]? = some c)
    (hc : c ≠ '\n') : (ofOffset text p).char? text = some c := by
  have hlt := (List.getElem?_eq_some_iff.1 hp).1
  induction text using lines_induction generalizing p with
  | last line hline =>
    rw [ofOffset_only hline hlt.le, char?, line?_only hline rfl]
    exact hp
  | cons line text hline ih =>
    obtain hfirst | hlater := le_or_gt p line.length
    · obtain hend | hinside := hfirst.eq_or_lt
      · rw [hend, List.getElem?_append_right le_rfl, Nat.sub_self] at hp
        exact absurd (Option.some.inj hp).symm hc
      · rw [ofOffset_of_le hline hfirst, char?, line?_first hline rfl]
        rwa [List.getElem?_append_left hinside] at hp
    · obtain ⟨o, ho, rfl⟩ := exists_of_length_lt hlater hlt.le
      rw [Nat.add_comm o, Nat.add_assoc, List.getElem?_append_right (Nat.le_add_right _ _),
        Nat.add_sub_cancel_left, Nat.add_comm 1, List.getElem?_cons_succ] at hp
      rw [ofOffset_behind hline, char?_lower hline (one_le_line_ofOffset _ _)]
      exact ih hp (List.getElem?_eq_some_iff.1 hp).1

/-! Places as they are told. -/

theorem toList_display (l : Location) :
    l.display.toList = Nat.toDigits 10 l.line ++ ':' :: Nat.toDigits 10 l.column := by
  simp [display]

theorem not_mem_toDigits {c : Char} (hc : c.isDigit = false) (n : Nat) :
    c ∉ Nat.toDigits 10 n := fun h => by
  rw [Nat.isDigit_of_mem_toDigits (by decide) (by decide) h] at hc
  cases hc

theorem toDigits_injective : Function.Injective (Nat.toDigits 10) :=
  Function.LeftInverse.injective (g := fun ds => Nat.ofDigitChars 10 ds 0) fun _ =>
    Nat.ofDigitChars_ten_toDigits

theorem display_injective : Function.Injective display := by
  intro l m h
  have hlist := congrArg String.toList h
  rw [toList_display, toList_display] at hlist
  obtain ⟨hline, hcolumn⟩ := cancel_of_notMem (not_mem_toDigits (by decide) _)
    (not_mem_toDigits (by decide) _) hlist
  exact congrArg₂ mk (toDigits_injective hline) (toDigits_injective hcolumn)

theorem blank_not_mem_display (l : Location) : ' ' ∉ l.display.toList := by
  rw [toList_display, List.mem_append, List.mem_cons]
  rintro (h | h | h)
  · exact not_mem_toDigits (by decide) _ h
  · cases h
  · exact not_mem_toDigits (by decide) _ h

end Location

/-- Read backwards, the message of a refusal is its place up to the first blank. -/
theorem Fault.reverse_display_unsupported (kind : String) (l : Location) :
    (unsupported kind l).display.toList.reverse =
      l.display.toList.reverse ++
        ' ' :: 't' :: 'a' :: ' ' :: ("Unsupported " ++ kind).toList.reverse := by
  have hmessage : (unsupported kind l).display =
      "Unsupported " ++ kind ++ " at " ++ l.display := rfl
  have hat : " at ".toList.reverse = [' ', 't', 'a', ' '] := by decide
  rw [hmessage, @String.toList_append _ l.display, List.reverse_append,
    @String.toList_append _ " at ", List.reverse_append, hat]
  rfl

/-- The message of a refusal tells its place. -/
theorem Fault.location_eq_of_display {kind kind' : String} {l m : Location}
    (h : (unsupported kind l).display = (unsupported kind' m).display) : l = m := by
  have hblank (l : Location) : ' ' ∉ l.display.toList.reverse := fun hmem =>
    l.blank_not_mem_display (List.mem_reverse.1 hmem)
  have hlist := congrArg (fun s : String => s.toList.reverse) h
  rw [reverse_display_unsupported, reverse_display_unsupported] at hlist
  have hplace := (cancel_of_notMem (hblank l) (hblank m) hlist).1
  exact Location.display_injective (String.toList_inj.1 (List.reverse_injective hplace))

/-! Tokens and what is refused. -/

namespace Source

/-- Every token starts at a character of its text, and this one is no line break. -/
theorem Lexer.exists_char_of_tokensFrom {text cs : List Char} {n : Nat} {previous : Option Lexeme}
    {braces : List Bool} {ts : List Token}
    (h : tokensFrom text.length n previous braces cs = some ts) (hcs : cs <:+ text) :
    ∀ t ∈ ts, ∃ c, text[t.offset]? = some c ∧ isLineBreak c = false := by
  induction n generalizing previous braces cs ts with
  | zero => cases h
  | succ n ih =>
    obtain ⟨broken, rest, hgap, -, ⟨-, rfl⟩ | ⟨hrest, l, rest', more, hl, hmore, rfl⟩⟩ :=
      tokensFrom_eq_some.1 h
    · exact fun t ht => nomatch ht
    · obtain ⟨c, tail, rfl⟩ := List.exists_cons_of_ne_nil hrest
      have hhead := (Gap.skip_eq_some_iff.1 hgap).1
      rw [startsGap_cons, Bool.or_eq_false_iff, Bool.or_eq_false_iff] at hhead
      have hsuffix := (Gap.skip_suffix hgap).trans hcs
      have hchar : text[text.length - (c :: tail).length]? = some c := by
        rw [← List.head?_drop, ← List.suffix_iff_eq_drop.1 hsuffix, List.head?_cons]
      exact List.forall_mem_cons.2
        ⟨⟨c, hchar, hhead.1.2⟩, ih hmore ((suffix_of_lexemeBehind hgap hl).trans hcs)⟩

theorem Lexer.exists_char_of_tokens? {text : List Char} {ts : List Token}
    (h : tokens? text = some ts) :
    ∀ t ∈ ts, ∃ c, text[t.offset]? = some c ∧ isLineBreak c = false :=
  exists_char_of_tokensFrom h (skipInterpreter_suffix text)

/-- Items stay where they are if their tokens do. -/
theorem move_items_eq {f : Nat → Nat} {ts : List Token} {items : List Item}
    (h : items? ts = some items) (hf : ∀ t ∈ ts, f t.offset = t.offset) :
    move f items = items := by
  have htokens : ts.map (·.move f) = ts :=
    (List.map_congr_left fun t ht => congrArg (fun o => { t with offset := o }) (hf t ht)).trans
      (List.map_id' ts)
  have hmove := items?_move f ts
  rw [htokens, h] at hmove
  exact (Option.some.inj hmove).symm

/-- What stays where it is whenever some tokens do stands where one of them stands. -/
theorem exists_offset_eq {ts : List Token} {o : Nat}
    (h : ∀ f : Nat → Nat, (∀ t ∈ ts, f t.offset = t.offset) → f o = o) :
    ∃ t ∈ ts, t.offset = o := by
  by_contra hnone
  push Not at hnone
  -- a displacement of nothing but the place in question keeps the tokens
  have hmoved := h (fun n => if n = o then o + 1 else n) fun t ht => if_neg (hnone t ht)
  simp at hmoved

/-- What is refused in items starts with one of their tokens. -/
theorem exists_offset_eq_of_refused {ts : List Token} {items : List Item} {r : Refusal}
    (hitems : items? ts = some items) (hr : structureOf items = .error r) :
    ∃ t ∈ ts, t.offset = r.offset := by
  refine exists_offset_eq fun f hf => ?_
  have hmove := structureOf_move f items
  rw [move_items_eq hitems hf, hr, Except.mapError_error] at hmove
  exact congrArg Refusal.offset (Except.error.inj hmove).symm

/-- So is what is refused in a type that an item gives a name. -/
theorem exists_offset_eq_of_text {ts : List Token} {items : List Item} {name : String}
    {t : TypeTerm} {r : Refusal} (hitems : items? ts = some (.typeAlias name t :: items))
    (hr : t.text = .error r) : ∃ u ∈ ts, u.offset = r.offset := by
  refine exists_offset_eq fun f hf => ?_
  have hitem := (List.cons.inj (move_items_eq hitems hf)).1
  have hmove := t.text_move f
  rw [(Item.typeAlias.inj hitem).2, hr, Except.mapError_error] at hmove
  exact congrArg Refusal.offset (Except.error.inj hmove).symm

end Source

namespace Location

/-- What places tell of a text. -/
structure Charts (text : List Char) : Prop where
  /-- They come in the order of the characters, and the end of the text comes last. -/
  ascending {p q : Nat} : p < q → q ≤ text.length → ofOffset text p < ofOffset text q
  /-- They do not depend on whether positions are counted in characters or in bytes. -/
  bytes (p : Nat) : ofByte text (byteLength (text.take p)) = ofOffset text p
  /-- They lead back to the characters. -/
  rest {p : Nat} : p ≤ text.length → (ofOffset text p).rest text = text.drop p
  /-- They are the places in the lines of the text. -/
  within (l : Location) : l.Within text ↔ ∃ p ≤ text.length, ofOffset text p = l
  /-- Messages tell them apart. -/
  messages {r r' : Refusal} : r.offset ≤ text.length → r'.offset ≤ text.length →
    (r.located text).display = (r'.located text).display → r.offset = r'.offset

theorem charts (text : List Char) : Charts text where
  ascending := ofOffset_lt_ofOffset
  bytes := ofByte_byteLength text
  rest := rest_ofOffset
  within _ := within_iff_exists
  messages hr hr' h := ofOffset_injective hr hr' (Fault.location_eq_of_display h)

/-- A character stands at a place, in the line and at the column that the place says. -/
structure Marks (text : List Char) (l : Location) (p : Nat) : Prop where
  lt_length : p < text.length
  place : ofOffset text p = l
  char : l.char? text = text[p]?

/-- The place is one in the text, and that of one character and no other. -/
def Pinpoints (text : List Char) (l : Location) : Prop := l.Within text ∧ ∃! p, l.Marks text p

theorem pinpoints_of_char {text : List Char} {o : Nat} {c : Char} (ho : text[o]? = some c)
    (hc : isLineBreak c = false) : (ofOffset text o).Pinpoints text := by
  have hlt := (List.getElem?_eq_some_iff.1 ho).1
  have hbreak : c ≠ '\n' := by
    rintro rfl
    cases hc
  refine ⟨within_iff_exists.2 ⟨o, hlt.le, rfl⟩, o, ⟨hlt, rfl, ?_⟩, fun p hp => ?_⟩
  · rw [char?_ofOffset ho hbreak, ho]
  · exact ofOffset_injective hp.lt_length.le hlt.le hp.place

end Location

/-- What starts with a token is refused at the place of a character. -/
theorem pinpoints_of_refused {text : List Char} {items : List Item} {o : Nat}
    (hparse : parse? text = some items)
    (h : ∀ ts, items? ts = some items → ∃ t ∈ ts, t.offset = o) :
    (Location.ofOffset text o).Pinpoints text := by
  obtain ⟨ts, hts, hitems⟩ := Option.bind_eq_some_iff.1 hparse
  obtain ⟨t, ht, rfl⟩ := h ts hitems
  obtain ⟨c, hchar, hc⟩ := Lexer.exists_char_of_tokens? hts t ht
  exact Location.pinpoints_of_char hchar hc

theorem pinpoints_of_extract {source kind : String} {l : Location}
    (h : extract source = .error (.unsupported kind l)) :
    l.Pinpoints (withoutMark source.toList) := by
  obtain ⟨items, hparse, hitems⟩ := exists_parse?_of_extract h nofun
  obtain ⟨r, hr, hl⟩ := Except.mapError_eq_error.1 hitems.symm
  cases hl
  exact pinpoints_of_refused hparse fun ts hts => exists_offset_eq_of_refused hts hr

theorem pinpoints_of_renderType {type kind : String} {l : Location}
    (h : renderType type = .error (.unsupported kind l)) :
    l.Pinpoints ("type __Rendered = " ++ type ++ ";\n").toList := by
  unfold renderType at h
  dsimp only at h
  have hfirst : ("type __Rendered = " ++ type ++ ";\n").toList[0]? = some 't' := by
    rw [String.toList_append, String.toList_append]
    rfl
  generalize ("type __Rendered = " ++ type ++ ";\n").toList = text at h hfirst ⊢
  cases hparse : parse? text with
  | none =>
    rw [itemsOf, hparse] at h
    cases h
  | some items =>
    rw [itemsOf, hparse] at h
    simp only [bind, Except.bind] at h
    split at h
    · obtain ⟨r, hr, hl⟩ := Except.mapError_eq_error.1 h
      cases hl
      exact pinpoints_of_refused hparse fun ts hts => exists_offset_eq_of_text hts hr
    · cases h
      exact Location.pinpoints_of_char hfirst (by decide)

/-- The places of a text tell its characters apart, in their order, and lead back to them; what is
refused in a file, or in a type, is refused at the place of one character of the text. -/
theorem places_tell_characters :
    (∀ text, Location.Charts text) ∧
      (∀ source kind l, extract source = .error (.unsupported kind l) →
        l.Pinpoints (withoutMark source.toList)) ∧
      ∀ type kind l, renderType type = .error (.unsupported kind l) →
        l.Pinpoints ("type __Rendered = " ++ type ++ ";\n").toList :=
  ⟨Location.charts, fun _ _ _ => pinpoints_of_extract, fun _ _ _ => pinpoints_of_renderType⟩

theorem eq_computedKey_of_matches {x : Except Fault String}
    (h : x matches .error (.unsupported "computed key" ⟨1, 21⟩)) :
    x = .error (.unsupported "computed key" ⟨1, 21⟩) := by
  split at h
  · rfl
  · cases h

/-- A statement behind a byte order mark, a line break of two characters and a blank of three
bytes, and a key in the middle of a type. -/
theorem places_tell_characters_wide :
    extract "\ufeffvar é: A\r\n\u3000f()" = .error (.unsupported "statement" ⟨2, 1⟩) ∧
      Location.Pinpoints (withoutMark "\ufeffvar é: A\r\n\u3000f()".toList) ⟨2, 1⟩ ∧
      renderType "\x7b [f()]: A \x7d" = .error (.unsupported "computed key" ⟨1, 21⟩) ∧
      Location.Pinpoints ("type __Rendered = " ++ "\x7b [f()]: A \x7d" ++ ";\n").toList ⟨1, 21⟩ ∧
      Location.ofOffset "é\n".toList 1 < Location.ofOffset "é\n".toList 2 := by
  have hfile : extract "\ufeffvar é: A\r\n\u3000f()" = .error (.unsupported "statement" ⟨2, 1⟩) :=
    eq_statement_of_matches (by decide +kernel)
  have htype : renderType "\x7b [f()]: A \x7d" =
      .error (.unsupported "computed key" ⟨1, 21⟩) := eq_computedKey_of_matches (by decide +kernel)
  exact ⟨hfile, places_tell_characters.2.1 _ _ _ hfile, htype,
    places_tell_characters.2.2 _ _ _ htype,
    (places_tell_characters.1 _).ascending (by decide) (by decide)⟩

end ApiSurface
