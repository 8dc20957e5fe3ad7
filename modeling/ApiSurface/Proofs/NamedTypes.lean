import ApiSurface.Proofs.Rereading

/-! Types that open with a word are read back: names with arguments, types of values and of modules,
and what is said of the object itself. -/
namespace ApiSurface.Source
open Parse Piece

theorem map_eq_of_forall₂ {α β : Type} {f : α → β} {as bs : List α}
    (h : List.Forall₂ (fun a b => f b = f a) as bs) : bs.map f = as.map f := by
  induction h with
  | nil => rfl
  | cons h _ ih => rw [List.map_cons, List.map_cons, h, ih]

theorem length_le_intercalate {α : Type} (sep : List α) {l : List α} {ls : List (List α)}
    (h : l ∈ ls) : l.length ≤ (sep.intercalate ls).length := by
  induction ls with
  | nil => cases h
  | cons l' ls ih =>
    cases ls with
    | nil =>
      obtain rfl : l = l' := by simpa using h
      simp
    | cons l'' ls =>
      rw [List.intercalate_cons_cons, List.length_append, List.length_append]
      obtain rfl | h := List.mem_cons.1 h
      · omega
      · have := ih h
        omega

namespace Grammar

variable {g : Grammar} {ts rest : List Token} {n : Nat}

/-! Arguments. -/

section

variable {as : List TypeTerm}

/-- Types with commas between them, up to a closing symbol. -/
theorem types_back (hg : g.Recalls) {close : String} {k : List Token → Prop}
    (h : commaList close (g.type true) ts = some (as, rest)) (hl : typesLegible as)
    (hclose : close ∈ [")", "]", "\x7d", ">"])
    (hn : (lexemes (commaPieces (typesPieces as))).length < n) :
    Reads (commaList close ((grammar n).type true))
      (lexemes (commaPieces (typesPieces as)) ++ [.symbol close]) k
      (fun as' => erasedTypes as' = erasedTypes as) := by
  rw [typesPieces_eq_map, lexemes_commaPieces_map] at hn ⊢
  have hcomma : close ≠ "," ∧ close ∈ [")", "]", "\x7d", ">", ",", ":", ";"] ∧
      close ∉ ["(", "[", "\x7b", "-"] := by
    simp only [List.mem_cons, List.not_mem_nil, or_false] at hclose
    obtain rfl | rfl | rfl | rfl := hclose <;> simp
  have hitem : ∀ b ∈ as, ∀ ts mid, g.type true ts = some (b, mid) → ∀ k, Closes k →
      Reads ((grammar n).type true) (lexemes b.pieces) k (·.erased = b.erased) := by
    intro b hb ts mid hread k hk
    refine (hg.type true hread (typesLegible_iff.1 hl b hb)).type_closed ?_ hk
    exact Nat.lt_of_le_of_lt (length_le_intercalate _
      (List.mem_map_of_mem (f := fun b : TypeTerm => lexemes b.pieces) hb)) hn
  have heach : ReadsEach ((grammar n).type true) (fun b : TypeTerm => lexemes b.pieces)
      (fun ts => Ahead.symbol close ts) (fun ts => Ahead.symbol "," ts)
      (fun a b => b.erased = a.erased) as := by
    obtain rfl | ⟨mid, hparted, -⟩ := commaList_parted h
    · trivial
    · exact hparted.readsEach
        (fun ts b mid hb hread _ => hitem b hb ts mid hread _ (closes_symbol (by simp)))
        fun ts b hb hread =>
          hitem b (List.mem_of_getLast? hb) ts _ hread _ (closes_symbol hcomma.2.1)
  have hne : ∀ b ∈ as, ∃ l ls, lexemes b.pieces = l :: ls ∧ l ≠ .symbol close := by
    intro b hb
    obtain rfl | ⟨mid, hparted, -⟩ := commaList_parted h
    · cases hb
    · obtain ⟨ts, mid, hread⟩ := hparted.forall b hb
      exact ne_symbol_of_opensType (hg.type true hread (typesLegible_iff.1 hl b hb)).opens
        hcomma.2.2
  refine (heach.commaList hcomma.1 hne).mono (fun _ h => h) fun bs hbs => ?_
  rw [erasedTypes_eq_map, erasedTypes_eq_map, map_eq_of_forall₂ hbs]

theorem ne_nil_of_typeArguments (h : g.typeArguments ts = some (as, rest)) : as ≠ [] := by
  obtain ⟨t, us, rfl, ht, h⟩ := symbol_bind_eq_some.1 h
  obtain ⟨as', mid, has, h⟩ := bind_eq_some.1 h
  rw [require_bind] at h
  split at h
  · next hne =>
    cases h
    rintro rfl
    simp at hne
  · cases h

theorem typeArguments_back (hg : g.Recalls) {k : List Token → Prop}
    (h : g.typeArguments ts = some (as, rest)) (hl : typesLegible as)
    (hn : (lexemes (argumentsPieces (typesPieces as))).length ≤ n) :
    (∃ ls, lexemes (argumentsPieces (typesPieces as)) = .symbol "<" :: ls) ∧
      Reads (grammar n).typeArguments (lexemes (argumentsPieces (typesPieces as))) k
        (fun as' => erasedTypes as' = erasedTypes as) := by
  have hne := ne_nil_of_typeArguments h
  obtain ⟨t, us, rfl, ht, h⟩ := symbol_bind_eq_some.1 h
  obtain ⟨as', mid, has, h⟩ := bind_eq_some.1 h
  rw [require_bind] at h
  split at h
  case isFalse => cases h
  case isTrue =>
  cases h
  obtain ⟨a, as, rfl⟩ := List.exists_cons_of_ne_nil hne
  have hls : lexemes (argumentsPieces (typesPieces (a :: as))) = .symbol "<" ::
      (lexemes (commaPieces (typesPieces (a :: as))) ++ [.symbol ">"]) := by
    simp [typesPieces, argumentsPieces]
  rw [hls] at hn ⊢
  refine ⟨⟨_, rfl⟩, .symbol ?_⟩
  have hn' : (lexemes (commaPieces (typesPieces (a :: as)))).length < n := by
    simp only [List.length_cons, List.length_append] at hn
    omega
  refine (types_back hg has hl (by simp) hn').bind_nil fun as' has' => .require ?_ (.pure has')
  cases as' with
  | nil => simp [erasedTypes] at has'
  | cons a' as' => rfl

/-- Arguments that stand where angle brackets are looked for. -/
theorem given_arguments_back (hg : g.Recalls) {p : Ahead} {k : List Token → Prop}
    (h : (sees p >>= fun b => if b then g.typeArguments else Pure.pure []) ts = some (as, rest))
    (hp : ∀ t ts, t.lexeme = .symbol "<" → t.startsLine = false → p (t :: ts))
    (hk : as = [] → ∀ ts, k ts → p ts = false) (hl : typesLegible as)
    (hn : (lexemes (argumentsPieces (typesPieces as))).length ≤ n) :
    Reads (sees p >>= fun b => if b then (grammar n).typeArguments else Pure.pure [])
      (lexemes (argumentsPieces (typesPieces as))) k
      (fun as' => erasedTypes as' = erasedTypes as) := by
  rcases sees_ite_eq_some.1 h with ⟨-, h⟩ | ⟨-, h⟩
  · obtain ⟨⟨ls, hls⟩, hr⟩ := typeArguments_back (k := k) hg h hl hn
    rw [hls] at hr ⊢
    exact .sees true (.head hp) hr
  · cases h
    exact .sees false (.nil (hk rfl)) (.pure rfl)

/-- Arguments are no part of a path. -/
theorem shows_arguments {pss : List (List Piece)} {k : List Token → Prop}
    (hk : ∀ ts, k ts → Ahead.symbol "." ts = false) :
    Shows (lexemes (argumentsPieces pss)) k fun ts => Ahead.symbol "." ts = false := by
  cases pss with
  | nil => exact .nil hk
  | cons ps pss => exact .symbol_ne (by simp)

end

/-! Paths. -/

theorem lexemes_dottedPieces (w : String) (ws : List String) :
    lexemes (dottedPieces (w :: ws)) =
      .word w :: ws.flatMap fun v => [.symbol ".", .word v] := by
  rw [dottedPieces, lexemes_intercalate, List.map_map]
  exact intercalate_cons_eq_flatMap (.symbol ".") w

theorem dotted_eq_some {first more : String → Bool} {path : List String}
    (h : dotted first more ts = some (path, rest)) :
    ∃ t us w ws, path = w :: ws ∧ first w ∧ (∀ v ∈ ws, more v) ∧ ts = t :: us ∧
      t.lexeme = .word w ∧ (Ahead.symbol "." us → ws ≠ []) := by
  obtain ⟨w, mid, hw, h⟩ := bind_eq_some.1 h
  obtain ⟨ws, mid', hws, e⟩ := bind_eq_some.1 h
  cases e
  obtain ⟨t, rfl, ht, hfirst⟩ := wordThat_eq_some.1 hw
  have hrep := repeats_of_during hws
  refine ⟨t, mid, w, ws, rfl, hfirst, fun v hv => ?_, rfl, ht, fun hdot e => ?_⟩
  · obtain ⟨ts, mid, hitem⟩ := hrep.forall v hv
    obtain ⟨_, _, -, -, hitem⟩ := symbol_bind_eq_some.1 hitem
    obtain ⟨_, -, -, hv⟩ := wordThat_eq_some.1 hitem
    exact hv
  · subst e
    cases hrep with
    | done hp => simp [hp] at hdot

theorem dotted_reads (first : String → Bool) {more : String → Bool} {w : String} {ws : List String}
    {k : List Token → Prop} (hw : first w) (hws : ∀ v ∈ ws, more v)
    (hk : ∀ ts, k ts → Ahead.symbol "." ts = false) :
    Reads (dotted first more) (lexemes (dottedPieces (w :: ws))) k (· = w :: ws) := by
  rw [lexemes_dottedPieces]
  have heach : ReadsEach (wordThat more) (fun v => [.word v]) k (fun ts => Ahead.symbol "." ts)
      Eq ws := by
    induction ws with
    | nil => trivial
    | cons v ws ih =>
      refine ⟨(Reads.wordThat_self (hws v (by simp))).mono (fun _ h => h) fun _ => Eq.symm, ?_⟩
      exact ih fun v hv => hws v (by simp [hv])
  refine .wordThat hw ((heach.during hk).bind_pure fun vs hvs => ?_)
  rw [List.forall₂_eq_eq_eq] at hvs
  rw [hvs]

/-! Modules. -/

theorem lexemes_importedPieces (source : String) (path : List String) :
    lexemes (importedPieces source path) = .word "import" :: .symbol "(" :: .string source ::
      .symbol ")" :: path.flatMap fun v => [.symbol ".", .word v] := by
  rw [importedPieces, lexemes_append]
  induction path with
  | nil => rfl
  | cons w ws ih => simpa using ih

theorem importedPath_eq_some {source : String} {path : List String}
    (h : importedPath ts = some ((source, path), rest)) :
    Ahead.word "import" ts ∧ ∀ w ws, path = w :: ws → ∀ v ∈ ws, isReference v := by
  obtain ⟨t, us, rfl, ht, h⟩ := word_bind_eq_some.1 h
  refine ⟨Ahead.word_iff.2 ⟨t, us, rfl, ht⟩, ?_⟩
  obtain ⟨_, _, -, -, h⟩ := symbol_bind_eq_some.1 h
  obtain ⟨source', _, -, h⟩ := bind_eq_some.1 h
  obtain ⟨_, _, -, h⟩ := bind_eq_some.1 h
  obtain ⟨_, _, -, -, h⟩ := symbol_bind_eq_some.1 h
  rcases takes_ite_eq_some.1 h with ⟨-, h⟩ | ⟨-, h⟩
  · obtain ⟨path', _, hpath, e⟩ := bind_eq_some.1 h
    cases e
    obtain ⟨_, _, w, ws, rfl, -, hws, -⟩ := dotted_eq_some hpath
    rintro _ _ e
    cases e
    exact hws
  · cases h
    rintro _ _ e
    cases e

theorem importedPath_reads {source : String} {path : List String} {k : List Token → Prop}
    (hp : ∀ w ws, path = w :: ws → ∀ v ∈ ws, isReference v)
    (hk : ∀ ts, k ts → Ahead.symbol "." ts = false) :
    Reads importedPath (lexemes (importedPieces source path)) k (· = (source, path)) := by
  rw [lexemes_importedPieces]
  refine .word (.symbol (.string (Reads.bind_of_nil (j := fun ts => Ahead.symbol ")" ts)
    (R := fun _ => True) ?_ ?_ fun _ _ => .symbol ?_)))
  · refine .takes_not (.nil fun ts hts => ?_) (.pure trivial)
    exact Ahead.symbol_of_symbol hts (by simp)
  · exact .symbol
  · cases path with
    | nil => exact .takes_not (.nil hk) (.pure rfl)
    | cons w ws =>
      refine .takes .symbol ?_
      have hd := dotted_reads (fun _ => true) (w := w) rfl (hp w ws rfl) hk
      rw [lexemes_dottedPieces] at hd
      exact hd.bind_pure fun path hpath => by rw [hpath]

/-! What follows a type is none of its arguments. -/

theorem importedArguments_back (hg : g.Recalls) {as : List TypeTerm} {k : List Token → Prop}
    (h : g.importedArguments ts = some (as, rest))
    (hk : as = [] → ∀ ts, k ts → Ahead.symbol "<" ts = false) (hl : typesLegible as)
    (hn : (lexemes (argumentsPieces (typesPieces as))).length ≤ n) :
    Reads (grammar n).importedArguments (lexemes (argumentsPieces (typesPieces as))) k
      (fun as' => erasedTypes as' = erasedTypes as) :=
  given_arguments_back hg h (fun t ts ht _ => Ahead.symbol_iff.2 ⟨t, ts, rfl, ht⟩) hk hl hn

theorem nearArguments_back (hg : g.Recalls) {as : List TypeTerm} {k : List Token → Prop}
    (h : g.nearArguments ts = some (as, rest)) (hk : ∀ ts, k ts → Ahead.symbol "<" ts = false)
    (hl : typesLegible as) (hn : (lexemes (argumentsPieces (typesPieces as))).length ≤ n) :
    Reads (grammar n).nearArguments (lexemes (argumentsPieces (typesPieces as))) k
      (fun as' => erasedTypes as' = erasedTypes as) := by
  refine given_arguments_back hg h (fun t ts ht hs => ?_) (fun _ ts hts => ?_) hl hn
  · simp [Ahead.and, Ahead.symbol, Ahead.lexeme, Ahead.sameLine, ht, hs]
  · simp [Ahead.and, hk ts hts]

/-! The object itself. -/

variable {t : TypeTerm}

/-- What may stand behind the word for the object: a type that it is tested for. -/
theorem test_back (front : List Lexeme) (hg : g.Recalls) {asserts : Bool} {plain : TypeTerm}
    (h : (takes ((Ahead.word "is").and Ahead.sameLine) >>= fun b =>
      if b then g.type true >>= fun t => Pure.pure (.predicate asserts "this" (some t))
      else Pure.pure plain) ts = some (t, rest))
    (hl : t.legible) (hplain : lexemes plain.pieces = front)
    (htest : ∀ t, lexemes (TypeTerm.predicate asserts "this" (some t)).pieces =
      front ++ .word "is" :: lexemes t.pieces) :
    ∃ ls, lexemes t.pieces = front ++ ls ∧
      (ls = [] ∨ ∃ ls', ls = .word "is" :: ls' ∧ opensType ls') ∧
      (t = plain ∨ ∃ t', t = .predicate asserts "this" t') ∧
      ∀ ⦃c m n⦄, ls.length + m ≤ n →
        Reads (takes ((Ahead.word "is").and Ahead.sameLine) >>= fun b =>
          if b then (grammar n).type true >>= fun t =>
            Pure.pure (.predicate asserts "this" (some t))
          else Pure.pure plain) ls (MayFollow c m (front ++ ls) rest) (·.erased = t.erased) := by
  rcases takes_ite_eq_some.1 h with ⟨-, h⟩ | ⟨-, h⟩
  · obtain ⟨t', mid, ht', e⟩ := bind_eq_some.1 h
    cases e
    rw [TypeTerm.legible, optionLegible] at hl
    have hr := hg.type true ht' hl
    refine ⟨_, htest t', .inr ⟨_, rfl, hr.opens⟩, .inr ⟨_, rfl⟩, fun c m n hn => ?_⟩
    refine .takes (.head fun t ts ht hs => ?_) ?_
    · simp [Ahead.and, Ahead.word, Ahead.lexeme, Ahead.sameLine, ht, hs]
    · rw [List.length_cons] at hn
      refine ((hr.type (m := m) (by omega)).mono (fun ts hts => ?_)
        fun _ h => h).bind_pure fun t'' ht'' => ?_
      · rw [List.append_cons] at hts
        exact { hts.tail _ with closed := fun e => by cases e }
      · simp [TypeTerm.erased, erasedOption, ht'']
  · cases h
    refine ⟨[], by simp [hplain], .inl rfl, .inl rfl, fun c m n hn => ?_⟩
    refine .takes_not (.nil fun ts hts => ?_) (.pure rfl)
    simp [Ahead.and, hts.word_eq_false (w := "is") (by simp)]

theorem opensType_test {w : String} {front ls : List Lexeme} (hf : opensType (.word w :: front))
    (h : ls = [] ∨ ∃ ls', ls = .word "is" :: ls' ∧ opensType ls') :
    opensType (.word w :: front ++ ls) := by
  obtain rfl | ⟨ls', rfl, h⟩ := h
  · simpa using hf
  · exact opensType_append_word hf fun e => head_of_opensType h ((List.append_nil _).trans e)

theorem grouped_test {w : String} {ls : List Lexeme}
    (h : ls = [] ∨ ∃ ls', ls = .word "is" :: ls' ∧ opensType ls') : Grouped (.word w :: ls) := by
  refine .of_word fun s ls' e => ?_
  obtain rfl | ⟨ls'', rfl, -⟩ := h <;> cases e

theorem this_back (hg : g.Recalls) (h : g.this ts = some (t, rest)) (hl : t.legible) :
    (∃ ls, lexemes t.pieces = .word "this" :: ls) ∧
      RecalledOperand (fun n => (grammar n).this) ts t rest := by
  obtain ⟨u, us, rfl, hu, h⟩ := word_bind_eq_some.1 h
  obtain ⟨ls, hls, ho, ht, hr⟩ := test_back [.word "this"] hg h hl rfl fun _ => rfl
  refine ⟨⟨ls, hls⟩, fun c m n hn => ?_, ?_, ?_, fun w ls' e => ?_⟩
  · rw [hls] at hn ⊢
    rw [List.length_append] at hn
    exact .word (hr (by omega))
  · rw [hls]
    exact opensOperand_of_word (opensType_test rfl ho) (grouped_test ho) (by simp) (by simp)
  · obtain rfl | ⟨t', rfl⟩ := ht <;> rfl
  · rw [hls] at e
    cases e
    exact Ahead.word_iff.2 ⟨u, us, rfl, hu⟩

theorem assertsThis_back (hg : g.Recalls) (h : g.assertsThis ts = some (t, rest))
    (hl : t.legible) : (∃ ls, lexemes t.pieces = .word "asserts" :: .word "this" :: ls) ∧
      RecalledOperand (fun n => (grammar n).assertsThis) ts t rest := by
  obtain ⟨u, us, rfl, hu, h⟩ := word_bind_eq_some.1 h
  obtain ⟨_, _, -, -, h⟩ := word_bind_eq_some.1 h
  obtain ⟨ls, hls, ho, ht, hr⟩ :=
    test_back [.word "asserts", .word "this"] hg h hl rfl fun _ => rfl
  refine ⟨⟨ls, hls⟩, fun c m n hn => ?_, ?_, ?_, fun w ls' e => ?_⟩
  · rw [hls] at hn ⊢
    rw [List.length_append] at hn
    exact .word (.word (hr (by omega)))
  · rw [hls]
    exact opensOperand_of_word (opensType_test rfl ho) (.of_word nofun) (by simp) (by simp)
  · obtain rfl | ⟨t', rfl⟩ := ht <;> rfl
  · rw [hls] at e
    cases e
    exact Ahead.word_iff.2 ⟨u, us, rfl, hu⟩

/-! Names. -/

/-- Neither a path nor arguments make a name of a word in front of them. -/
theorem leavesType_path (ws : List String) (pss : List (List Piece)) :
    leavesType ((ws.flatMap fun v => [.symbol ".", .word v]) ++ lexemes (argumentsPieces pss)) ∧
      ∀ w, leavesType (.word w ::
        (ws.flatMap fun v => [.symbol ".", .word v]) ++ lexemes (argumentsPieces pss)) := by
  cases ws with
  | cons w ws => exact ⟨rfl, fun _ => rfl⟩
  | nil =>
    cases pss with
    | nil => exact ⟨rfl, fun _ => rfl⟩
    | cons ps pss => exact ⟨rfl, fun _ => rfl⟩

theorem grouped_path (w : String) (ws : List String) (pss : List (List Piece)) :
    Grouped (.word w ::
      ((ws.flatMap fun v => [.symbol ".", .word v]) ++ lexemes (argumentsPieces pss))) := by
  refine .of_word fun s ls' e hs => ?_
  obtain rfl | rfl : s = "." ∨ s = "<" := by
    cases ws with
    | cons w ws =>
      cases e
      exact .inl rfl
    | nil =>
      cases pss with
      | nil => cases e
      | cons ps pss =>
        cases e
        exact .inr rfl
  all_goals simp at hs

theorem queryImport_back (hg : g.Recalls) {u : Token} {us : List Token}
    (hu : u.lexeme = .word "typeof")
    (h : (importedPath >>= fun p => g.importedArguments >>= fun own => g.nearArguments >>= fun as =>
      Pure.pure (TypeTerm.queryImport p.1 p.2 own as)) us = some (t, rest)) (hl : t.legible) :
    (∃ ls, lexemes t.pieces = .word "typeof" :: ls) ∧
      RecalledOperand (fun n => (grammar n).query) (u :: us) t rest := by
  obtain ⟨⟨source, path⟩, mid, hpath, h⟩ := bind_eq_some.1 h
  obtain ⟨own, mid', hown, h⟩ := bind_eq_some.1 h
  obtain ⟨as, mid'', has, e⟩ := bind_eq_some.1 h
  cases e
  simp only [TypeTerm.legible, Bool.and_eq_true] at hl
  have hls : lexemes (TypeTerm.queryImport source path own as).pieces = .word "typeof" ::
      (lexemes (importedPieces source path) ++ (lexemes (argumentsPieces (typesPieces own)) ++
        lexemes (argumentsPieces (typesPieces as)))) := by
    simp [TypeTerm.pieces]
  -- Arguments of the value itself cannot stand where the module has none.
  have hempty : own = [] → as = [] := by
    rintro rfl
    rcases sees_ite_eq_some.1 hown with ⟨-, h⟩ | ⟨hne, h⟩
    · exact absurd rfl (ne_nil_of_typeArguments h)
    · cases h
      rcases sees_ite_eq_some.1 has with ⟨hs, -⟩ | ⟨-, h⟩
      · simp [Ahead.and, hne] at hs
      · cases h
        rfl
  refine ⟨⟨_, hls⟩, fun c m n hn => ?_, ?_, rfl, fun w ls e => ?_⟩
  · rw [hls] at hn ⊢
    simp only [List.length_cons, List.length_append] at hn
    have hfollow : ∀ ts, MayFollow c m (.word "typeof" :: (lexemes (importedPieces source path) ++
        (lexemes (argumentsPieces (typesPieces own)) ++
          lexemes (argumentsPieces (typesPieces as))))) rest ts →
        Ahead.symbol "." ts = false ∧ Ahead.symbol "<" ts = false :=
      fun ts hts => ⟨hts.symbol_eq_false (by simp), hts.symbol_eq_false (by simp)⟩
    generalize MayFollow c m _ rest = k at hfollow ⊢
    refine .word (.sees true ?_ ?_)
    · rw [lexemes_importedPieces]
      exact .word
    refine (importedPath_reads (importedPath_eq_some hpath).2 fun _ h => h).bind ?_ fun p hp => ?_
    · exact (shows_arguments fun _ h => h).append (shows_arguments fun ts hts => (hfollow ts hts).1)
    subst hp
    refine (importedArguments_back hg hown (k := fun ts => own = [] → Ahead.symbol "<" ts = false)
      (fun e ts hts => hts e) hl.1 (by omega)).bind ?_ fun own' hown' => ?_
    · cases own with
      | nil =>
        rw [hempty rfl]
        exact .nil fun ts hts _ => (hfollow ts hts).2
      | cons a own => exact fun _ _ _ _ e => by cases e
    refine (nearArguments_back hg has (fun ts hts => (hfollow ts hts).2) hl.2
      (by omega)).bind_pure fun as' has' => ?_
    simp [TypeTerm.erased, hown', has']
  · rw [hls, lexemes_importedPieces]
    exact opensOperand_of_word rfl (.of_word (by simp)) (by simp) (by simp)
  · rw [hls] at e
    cases e
    exact Ahead.word_iff.2 ⟨u, us, rfl, hu⟩

theorem queryValue_back (hg : g.Recalls) {u : Token} {us : List Token}
    (hu : u.lexeme = .word "typeof") (himport : Ahead.word "import" us = false)
    (h : (dotted (fun _ => true) (fun _ => true) >>= fun path => g.nearArguments >>= fun as =>
      Pure.pure (TypeTerm.query path as)) us = some (t, rest)) (hl : t.legible) :
    (∃ ls, lexemes t.pieces = .word "typeof" :: ls) ∧
      RecalledOperand (fun n => (grammar n).query) (u :: us) t rest := by
  obtain ⟨path, mid, hpath, h⟩ := bind_eq_some.1 h
  obtain ⟨as, mid', has, e⟩ := bind_eq_some.1 h
  cases e
  obtain ⟨v, vs, w, ws, rfl, -, -, rfl, hv, -⟩ := dotted_eq_some hpath
  rw [TypeTerm.legible] at hl
  have hls : lexemes (TypeTerm.query (w :: ws) as).pieces = .word "typeof" ::
      (lexemes (dottedPieces (w :: ws)) ++ lexemes (argumentsPieces (typesPieces as))) := by
    simp [TypeTerm.pieces]
  have hw : w ≠ "import" := by
    rintro rfl
    simp [Ahead.word, Ahead.lexeme, hv] at himport
  refine ⟨⟨_, hls⟩, fun c m n hn => ?_, ?_, rfl, fun w ls e => ?_⟩
  · rw [hls] at hn ⊢
    simp only [List.length_cons, List.length_append] at hn
    refine .word (.sees false ?_ ?_)
    · rw [lexemes_dottedPieces]
      exact .word_ne hw
    refine (dotted_reads _ rfl (fun _ _ => rfl) fun _ h => h).bind
      (shows_arguments fun ts hts => hts.symbol_eq_false (by simp)) fun path' hpath' => ?_
    refine (nearArguments_back hg has (fun ts hts => hts.symbol_eq_false (by simp)) hl
      (by omega)).bind_pure fun as' has' => ?_
    simp [TypeTerm.erased, hpath', has']
  · rw [hls, lexemes_dottedPieces]
    exact opensOperand_of_word ((leavesType_path _ _).2 w) (.of_word (by simp)) (by simp) (by simp)
  · rw [hls] at e
    cases e
    exact Ahead.word_iff.2 ⟨u, _, rfl, hu⟩

theorem query_back (hg : g.Recalls) (h : g.query ts = some (t, rest)) (hl : t.legible) :
    (∃ ls, lexemes t.pieces = .word "typeof" :: ls) ∧
      RecalledOperand (fun n => (grammar n).query) ts t rest := by
  obtain ⟨u, us, rfl, hu, h⟩ := word_bind_eq_some.1 h
  rcases sees_ite_eq_some.1 h with ⟨-, h⟩ | ⟨himport, h⟩
  · exact queryImport_back hg hu h hl
  · exact queryValue_back hg hu himport h hl

theorem imported_back (hg : g.Recalls) (h : g.imported ts = some (t, rest)) (hl : t.legible) :
    (∃ ls, lexemes t.pieces = .word "import" :: ls) ∧
      RecalledOperand (fun n => (grammar n).imported) ts t rest := by
  obtain ⟨⟨source, path⟩, mid, hpath, h⟩ := bind_eq_some.1 h
  obtain ⟨as, mid', has, e⟩ := bind_eq_some.1 h
  cases e
  rw [TypeTerm.legible] at hl
  have hls : lexemes (TypeTerm.imported source path as).pieces =
      lexemes (importedPieces source path) ++ lexemes (argumentsPieces (typesPieces as)) := by
    simp [TypeTerm.pieces]
  refine ⟨⟨_, by rw [hls, lexemes_importedPieces]; rfl⟩, fun c m n hn => ?_, ?_, rfl,
    fun w ls e => ?_⟩
  · rw [hls] at hn ⊢
    rw [List.length_append] at hn
    refine (importedPath_reads (importedPath_eq_some hpath).2 fun _ h => h).bind
      (shows_arguments fun ts hts => hts.symbol_eq_false (by simp)) fun p hp => ?_
    subst hp
    refine (importedArguments_back hg has (fun _ ts hts => hts.symbol_eq_false (by simp)) hl
      (by omega)).bind_pure fun as' has' => ?_
    simp [TypeTerm.erased, has']
  · rw [hls, lexemes_importedPieces]
    exact opensOperand_of_word rfl (.of_word (by simp)) (by simp) (by simp)
  · rw [hls, lexemes_importedPieces] at e
    cases e
    exact (importedPath_eq_some hpath).1

theorem reference_back (hg : g.Recalls)
    (h : (dotted opensTypeName (fun _ => true) >>= fun path => g.nearArguments >>= fun as =>
      Pure.pure (TypeTerm.reference path as)) ts = some (t, rest)) (hl : t.legible) :
    (∃ u us w ls, ts = u :: us ∧ u.lexeme = .word w ∧ lexemes t.pieces = .word w :: ls ∧
        (Ahead.symbol "." us → ∃ ls', ls = .symbol "." :: ls') ∧
        ∀ v ls', ls ≠ .word v :: ls') ∧
      RecalledOperand (fun n => dotted opensTypeName (fun _ => true) >>= fun path =>
        (grammar n).nearArguments >>= fun as =>
          Pure.pure (TypeTerm.reference path as)) ts t rest := by
  obtain ⟨path, mid, hpath, h⟩ := bind_eq_some.1 h
  obtain ⟨as, mid', has, e⟩ := bind_eq_some.1 h
  cases e
  obtain ⟨u, us, w, ws, rfl, hw, -, rfl, hu, hdot⟩ := dotted_eq_some hpath
  rw [TypeTerm.legible] at hl
  have hls : lexemes (TypeTerm.reference (w :: ws) as).pieces =
      lexemes (dottedPieces (w :: ws)) ++ lexemes (argumentsPieces (typesPieces as)) := by
    simp [TypeTerm.pieces]
  have hword : ∀ v ls', (ws.flatMap fun v => [.symbol ".", .word v]) ++
      lexemes (argumentsPieces (typesPieces as)) ≠ .word v :: ls' := by
    cases ws with
    | cons w ws => exact nofun
    | nil => cases as <;> exact nofun
  refine ⟨⟨u, us, w, _, rfl, hu, by rw [hls, lexemes_dottedPieces]; rfl, fun hs => ?_, hword⟩,
    fun c m n hn => ?_, ?_, rfl, fun w ls e => ?_⟩
  · obtain ⟨v, ws, rfl⟩ := List.exists_cons_of_ne_nil (hdot hs)
    exact ⟨_, rfl⟩
  · rw [hls] at hn ⊢
    rw [List.length_append] at hn
    refine (dotted_reads _ hw (fun _ _ => rfl) fun _ h => h).bind
      (shows_arguments fun ts hts => hts.symbol_eq_false (by simp)) fun path' hpath' => ?_
    refine (nearArguments_back hg has (fun ts hts => hts.symbol_eq_false (by simp)) hl
      (by omega)).bind_pure fun as' has' => ?_
    simp [TypeTerm.erased, hpath', has']
  · rw [hls, lexemes_dottedPieces]
    refine opensOperand_of_word (leavesType_path _ _).1 (grouped_path w ws _) ?_
      fun _ ls' => hword _ ls'
    rintro rfl
    simp [opensTypeName, isReference, reservedWords] at hw
  · rw [hls, lexemes_dottedPieces] at e
    cases e
    exact Ahead.word_iff.2 ⟨u, us, rfl, hu⟩

/-! Which name it is. -/

section

variable {w : String} {ls : List Lexeme} {k : List Token → Prop}

theorem shows_not_assertion (hw : w ≠ "asserts") : Shows (.word w :: ls) k fun ts =>
    ((Ahead.word "asserts").before (Ahead.word "this")) ts = false :=
  .mono (.word_ne hw) fun ts hts => by simp [Ahead.before, hts]

theorem shows_not_keyword (hw : keywordTypes.contains w = false) : Shows (.word w :: ls) k fun ts =>
    ((Ahead.wordIn keywordTypes).before (Ahead.symbol ".").not) ts = false :=
  .head fun t ts ht _ => by
    simp only [Ahead.before, Ahead.wordIn, Ahead.wordThat, Ahead.lexeme, ht, hw, Bool.false_and]

end

theorem keyword_back {w : String} (hw : keywordTypes.contains w) (hts : Ahead.word w ts) :
    RecalledOperand (fun n => (grammar n).namedType) ts (.keyword w) rest := by
  have hne : ∀ x, keywordTypes.contains x = false → w ≠ x := by
    rintro x hx rfl
    rw [hw] at hx
    cases hx
  refine ⟨fun c m n _ => ?_, opensOperand_of_word rfl (.of_word nofun) (hne "new" (by decide))
    fun _ => nofun, rfl, fun w' ls e => ?_⟩
  · refine .sees false (shows_not_assertion (hne _ (by decide))) <| .sees true ?_ <|
      (Reads.wordThat_self rfl).map fun w' hw' => by rw [hw']
    refine .cons (B := fun ts => Ahead.symbol "." ts = false)
      (.nil fun ts hts => hts.symbol_eq_false (by simp)) fun t ts ht _ hts => ?_
    simp only [Ahead.before, Ahead.wordIn, Ahead.wordThat, Ahead.lexeme, ht, hw, Ahead.not,
      List.tail_cons, hts, Bool.not_false, Bool.and_self]
  · cases e
    exact hts

/-- A word behind which a literal for a truth value goes on is no name. -/
theorem boolean_back {b : Bool} (hts : Ahead.word (if b then "true" else "false") ts) :
    RecalledOperand (fun n => (grammar n).namedType) ts (.boolean b) rest := by
  refine ⟨fun c m n _ => ?_, ?_, rfl, fun w' ls e => ?_⟩
  · cases b
    · exact .sees false (shows_not_assertion (by decide)) <|
        .sees false (shows_not_keyword (by decide)) <| .takes_not (.word_ne (by decide)) <|
        .takes .word (.pure rfl)
    · exact .sees false (shows_not_assertion (by decide)) <|
        .sees false (shows_not_keyword (by decide)) <| .takes .word (.pure rfl)
  · cases b
    · exact opensOperand_of_word rfl (.of_word nofun) (by decide) fun _ => nofun
    · exact opensOperand_of_word rfl (.of_word nofun) (by decide) fun _ => nofun
  · cases e
    exact hts

theorem namedType_back (hg : g.Recalls) (h : g.namedType ts = some (t, rest)) (hl : t.legible) :
    (∃ w ls, lexemes t.pieces = .word w :: ls) ∧
      RecalledOperand (fun n => (grammar n).namedType) ts t rest := by
  rcases sees_ite_eq_some.1 h with ⟨-, h⟩ | ⟨h₁, h⟩
  · obtain ⟨⟨ls, hls⟩, hr⟩ := assertsThis_back hg h hl
    refine ⟨⟨_, _, hls⟩, { hr with back := fun c m n hn => ?_ }⟩
    have hb := hr.back c hn
    rw [hls] at hb ⊢
    refine .sees true (.cons .word fun t ts ht _ hts => ?_) hb
    simpa [Ahead.before, Ahead.word, Ahead.lexeme, ht] using hts
  rcases sees_ite_eq_some.1 h with ⟨h₂, h⟩ | ⟨h₂, h⟩
  · obtain ⟨w, mid, hw, e⟩ := map_eq_some.1 h
    cases e
    obtain ⟨u, rfl, hu, -⟩ := wordThat_eq_some.1 hw
    refine ⟨⟨_, _, rfl⟩, keyword_back ?_ (Ahead.word_iff.2 ⟨u, _, rfl, hu⟩)⟩
    simp only [Ahead.before, Ahead.wordIn, Ahead.wordThat, Ahead.lexeme, hu, Bool.and_eq_true] at h₂
    exact h₂.1
  rcases takes_ite_eq_some.1 h with ⟨h₃, h⟩ | ⟨h₃, h⟩
  · cases h
    exact ⟨⟨_, _, rfl⟩, boolean_back h₃⟩
  rcases takes_ite_eq_some.1 h with ⟨h₄, h⟩ | ⟨h₄, h⟩
  · cases h
    exact ⟨⟨_, _, rfl⟩, boolean_back h₄⟩
  rcases sees_ite_eq_some.1 h with ⟨-, h⟩ | ⟨h₅, h⟩
  · obtain ⟨⟨ls, hls⟩, hr⟩ := this_back hg h hl
    refine ⟨⟨_, _, hls⟩, { hr with back := fun c m n hn => ?_ }⟩
    have hb := hr.back c hn
    rw [hls] at hb ⊢
    exact .sees false (shows_not_assertion (by decide)) <|
      .sees false (shows_not_keyword (by decide)) <| .takes_not (.word_ne (by decide)) <|
      .takes_not (.word_ne (by decide)) <| .sees true .word hb
  rcases sees_ite_eq_some.1 h with ⟨-, h⟩ | ⟨h₆, h⟩
  · obtain ⟨⟨ls, hls⟩, hr⟩ := query_back hg h hl
    refine ⟨⟨_, _, hls⟩, { hr with back := fun c m n hn => ?_ }⟩
    have hb := hr.back c hn
    rw [hls] at hb ⊢
    exact .sees false (shows_not_assertion (by decide)) <|
      .sees false (shows_not_keyword (by decide)) <| .takes_not (.word_ne (by decide)) <|
      .takes_not (.word_ne (by decide)) <| .sees false (.word_ne (by decide)) <| .sees true .word hb
  rcases sees_ite_eq_some.1 h with ⟨-, h⟩ | ⟨h₇, h⟩
  · obtain ⟨⟨ls, hls⟩, hr⟩ := imported_back hg h hl
    refine ⟨⟨_, _, hls⟩, { hr with back := fun c m n hn => ?_ }⟩
    have hb := hr.back c hn
    rw [hls] at hb ⊢
    exact .sees false (shows_not_assertion (by decide)) <|
      .sees false (shows_not_keyword (by decide)) <| .takes_not (.word_ne (by decide)) <|
      .takes_not (.word_ne (by decide)) <| .sees false (.word_ne (by decide)) <|
      .sees false (.word_ne (by decide)) <| .sees true .word hb
  obtain ⟨⟨u, us, w, ls, rfl, hu, hls, hdot, hnext⟩, hr⟩ := reference_back hg h hl
  have hne : ∀ x, Ahead.word x (u :: us) = false → w ≠ x := by
    rintro x hx rfl
    simp [Ahead.word, Ahead.lexeme, hu] at hx
  refine ⟨⟨_, _, hls⟩, { hr with back := fun c m n hn => ?_ }⟩
  have hb := hr.back c hn
  rw [hls] at hb ⊢
  refine .sees false ?_ <| .sees false ?_ <| .takes_not (.word_ne (hne _ h₃)) <|
    .takes_not (.word_ne (hne _ h₄)) <| .sees false (.word_ne (hne _ h₅)) <|
    .sees false (.word_ne (hne _ h₆)) <| .sees false (.word_ne (hne _ h₇)) hb
  · refine .cons (B := fun ts => Ahead.word "this" ts = false) ?_ fun t ts _ _ hts => ?_
    · cases ls with
      | nil => exact .nil fun ts hts => hts.word_eq_false (by simp)
      | cons l ls =>
        refine .head fun t ts ht _ => ?_
        simp only [Ahead.word, Ahead.lexeme, ht, beq_eq_false_iff_ne]
        rintro rfl
        exact hnext _ _ rfl
    · simp [Ahead.before, hts]
  · cases hw : keywordTypes.contains w with
    | false => exact shows_not_keyword hw
    | true =>
      -- The word of a type that needs no declaration is a name in front of a point only.
      have hs : Ahead.symbol "." us := by
        simpa [Ahead.before, Ahead.wordIn, Ahead.wordThat, Ahead.lexeme, hu, Ahead.not,
          List.contains_iff_mem.1 hw] using h₂
      obtain ⟨ls', rfl⟩ := hdot hs
      exact .cons .symbol fun t ts _ _ hts => by simp [Ahead.before, Ahead.not, hts]

end Grammar
end ApiSurface.Source
