import ApiSurface.Proofs.FramedModules
import ApiSurface.Proofs.JoinedTokens
import ApiSurface.Proofs.SourceOrder

/-! Two declaration files in a row, the second in a new line behind the first. Where the first one
ends in a semicolon, the structure of both is that of the first and then that of the second, and a
construct of the second that is refused is refused at its place in the whole text: nothing that is
known of the first file is kept for the second. -/
namespace ApiSurface
open Source

/-! Places. -/

namespace Location

/-- A place counts the line breaks before it. -/
theorem line_foldl_step (l : Location) (cs : List Char) :
    (cs.foldl step l).line = l.line + cs.count '\n' := by
  induction cs generalizing l with
  | nil => rfl
  | cons c cs ih =>
    rw [List.foldl_cons, ih, List.count_cons, step]
    by_cases hc : c = '\n'
    · simp only [hc, if_true, beq_self_eq_true]
      omega
    · simp [hc]

/-- So many lines further down. -/
def lower (l : Location) (n : Nat) : Location := ⟨l.line + n, l.column⟩

theorem foldl_step_lower (l : Location) (n : Nat) (cs : List Char) :
    cs.foldl step (l.lower n) = (cs.foldl step l).lower n := by
  induction cs generalizing l with
  | nil => rfl
  | cons c cs ih =>
    have hstep : (l.lower n).step c = (l.step c).lower n := by
      unfold step
      split <;> simp [lower, Nat.add_right_comm]
    rw [List.foldl_cons, List.foldl_cons, hstep, ih]

/-- A place in a text behind another one and a line break. -/
theorem ofOffset_append (cs bs : List Char) (o : Nat) :
    ofOffset (cs ++ '\n' :: bs) (o + (cs.length + 1)) =
      (ofOffset bs o).lower (cs.count '\n' + 1) := by
  have htake : (cs ++ '\n' :: bs).take (o + (cs.length + 1)) = cs ++ '\n' :: bs.take o := by
    rw [Nat.add_comm o, Nat.add_assoc, List.take_length_add_append, Nat.add_comm 1,
      List.take_succ_cons]
  have hbreak : step (cs.foldl step start) '\n' = start.lower (cs.count '\n' + 1) := by
    rw [step, if_pos rfl, line_foldl_step]
    simp [lower, start, Nat.add_comm]
  rw [ofOffset, htake, List.foldl_append, List.foldl_cons, hbreak, foldl_step_lower]
  rfl

end Location

/-! Items. -/

theorem structureOf_append (items items' : List Item) :
    structureOf (items ++ items') =
      structureOf items >>= fun s => (s ++ ·) <$> structureOf items' := by
  simp only [structureOf, List.mapM_append]
  cases items.mapM fun i : Item => i.declarations with
  | error r => rfl
  | ok dss =>
    cases items'.mapM fun i : Item => i.declarations with
    | error r => rfl
    | ok dss' => exact congrArg Except.ok List.flatten_append

/-- No item of a file that has a structure is refused. -/
theorem accepted_of_structureOf {items : List Item} {s : Structure}
    (h : structureOf items = .ok s) : ∀ i ∈ items, i.Accepted := by
  induction items generalizing s with
  | nil => exact fun _ hi => nomatch hi
  | cons j items ih =>
    obtain ⟨ds, s', hds, hs', -⟩ := structureOf_cons.1 h
    intro i hi
    obtain rfl | hi := List.mem_cons.1 hi
    · exact ⟨ds, hds⟩
    · exact ih hs' i hi

/-! Texts. -/

theorem withoutMark_append (cs bs : List Char) :
    withoutMark (cs ++ '\n' :: bs) = withoutMark cs ++ '\n' :: bs := by
  cases cs with
  | nil => rfl
  | cons c cs =>
    by_cases hc : c = '\ufeff'
    · subst hc
      rfl
    · simp [withoutMark, hc]

theorem count_withoutMark (cs : List Char) :
    (withoutMark cs).count '\n' = cs.count '\n' := by
  unfold withoutMark
  split
  · rfl
  · rfl

/-- The last token of the text is a semicolon. -/
def EndsInSemicolon (text : List Char) : Prop :=
  ∃ ts, Lexer.tokens? text = some ts ∧ ts.getLast?.map Token.lexeme = some (.symbol ";")

/-- The items of a text that is followed by another one. -/
theorem parse?_append {cs bs : List Char} {items items' : List Item} {s : Structure}
    (ha : parse? cs = some items) (hs : structureOf items = .ok s) (hend : EndsInSemicolon cs)
    (hb : parse? bs = some items') (hbs : ¬['#', '!'] <+: bs) :
    parse? (cs ++ '\n' :: bs) = some (move id items ++ move (· + (cs.length + 1)) items') := by
  obtain ⟨ts, hts, hlast⟩ := hend
  rw [parse?, hts] at ha
  obtain ⟨ts', hts', hitems'⟩ := Option.bind_eq_some_iff.1 hb
  rw [parse?, Lexer.tokens?_append hts hts' (brackets_of_items? ha) hlast hbs]
  exact items?_append _ ha (accepted_of_structureOf hs) hlast hitems'

theorem withoutMark_of_head {cs : List Char} (h : cs.head? ≠ some '\ufeff') :
    withoutMark cs = cs := by
  unfold withoutMark
  split
  · exact absurd rfl h
  · rfl

theorem extract_of_parse? {source : String} {text : List Char} {items : List Item}
    (htext : withoutMark source.toList = text) (h : parse? text = some items) :
    extract source = (structureOf items).mapError (·.located text) := by
  have hitems : itemsOf text = .ok items := by rw [itemsOf, h]
  rw [extract, htext, hitems]
  rfl

/-- A text that is no syntax error has items. -/
theorem exists_parse?_of_extract {source : String} {x : Except Fault Structure}
    (h : extract source = x) (hx : ∀ message, x ≠ .error (.grammar message)) :
    ∃ items, parse? (withoutMark source.toList) = some items ∧
      x = (structureOf items).mapError (·.located (withoutMark source.toList)) := by
  cases hparse : parse? (withoutMark source.toList) with
  | none =>
    have hitems : itemsOf (withoutMark source.toList) =
        .error (.grammar "the text is no declaration file") := by rw [itemsOf, hparse]
    rw [extract, hitems] at h
    exact absurd h.symm (hx _)
  | some items => exact ⟨items, rfl, h.symm.trans (extract_of_parse? rfl hparse)⟩

/-- What comes of two texts in a row, by what comes of the items of the second. -/
theorem extract_joined {a b : String} {items items' : List Item} {s : Structure}
    (hparse : parse? (withoutMark a.toList) = some items) (hs : structureOf items = .ok s)
    (hend : EndsInSemicolon (withoutMark a.toList)) (hparse' : parse? b.toList = some items')
    (hinterpreter : ¬['#', '!'] <+: b.toList) :
    extract (a ++ "\n" ++ b) =
      (s ++ ·) <$> (structureOf items').mapError fun r =>
        .unsupported r.construct.name
          ((Location.ofOffset b.toList r.offset).lower (a.toList.count '\n' + 1)) := by
  have htext : withoutMark (a ++ "\n" ++ b).toList =
      withoutMark a.toList ++ '\n' :: b.toList := by
    rw [← withoutMark_append]
    simp
  have hfirst : structureOf (move id items) = .ok s := by rw [structureOf_move, hs]; rfl
  rw [extract_of_parse? htext (parse?_append hparse hs hend hparse' hinterpreter),
    structureOf_append, hfirst, structureOf_move]
  cases structureOf items' with
  | ok s' => rfl
  | error r =>
    refine congrArg (fun l => Except.error (Fault.unsupported r.construct.name l)) ?_
    rw [← count_withoutMark]
    exact Location.ofOffset_append _ _ _

/-- Extraction maps a file and one in a new line behind it to the structures of both in a row, if
the first ends in a semicolon; what is unsupported in the second is so in both, so many lines
further down. The second may have nothing at its front that is read only there: neither a byte order
mark nor the name of an interpreter. That both parse together need not be asked. -/
theorem extract_append {a b : String} {s : Structure} (ha : extract a = .ok s)
    (hend : EndsInSemicolon (withoutMark a.toList)) (hmark : b.toList.head? ≠ some '\ufeff')
    (hinterpreter : ¬['#', '!'] <+: b.toList) :
    (∀ s', extract b = .ok s' → extract (a ++ "\n" ++ b) = .ok (s ++ s')) ∧
      ∀ kind l, extract b = .error (.unsupported kind l) →
        extract (a ++ "\n" ++ b) =
          .error (.unsupported kind ⟨l.line + a.toList.count '\n' + 1, l.column⟩) := by
  have hb {x : Except Fault Structure} (h : extract b = x) (hx : ∀ m, x ≠ .error (.grammar m)) :=
    withoutMark_of_head hmark ▸ exists_parse?_of_extract h hx
  obtain ⟨items, hparse, hs⟩ := exists_parse?_of_extract ha nofun
  have hs := Except.mapError_eq_ok.1 hs.symm
  refine ⟨fun s' h => ?_, fun kind l h => ?_⟩
  · obtain ⟨items', hparse', hs'⟩ := hb h nofun
    rw [extract_joined hparse hs hend hparse' hinterpreter, Except.mapError_eq_ok.1 hs'.symm]
    rfl
  · obtain ⟨items', hparse', hs'⟩ := hb h nofun
    obtain ⟨r, hr, hl⟩ := Except.mapError_eq_error.1 hs'.symm
    rw [extract_joined hparse hs hend hparse' hinterpreter, hr]
    cases hl
    rfl

/-- The name and the type of a property. -/
def Declaration.nameAndType? : Declaration → Option (String × String)
  | property n t => some (n, t)
  | _ => none

theorem eq_property_of_nameAndType? {x : Except Fault Structure} {n t : String}
    (h : x.toOption.map (·.map Declaration.nameAndType?) = some [some (n, t)]) :
    x = .ok [.property n t] := by
  cases x with
  | error f => cases h
  | ok s =>
    obtain ⟨d, rfl, hd⟩ := List.map_eq_singleton_iff.1 (Option.some.inj h)
    cases d <;> cases hd
    rfl

theorem eq_statement_of_matches {x : Except Fault Structure}
    (h : x matches .error (.unsupported "statement" ⟨2, 1⟩)) :
    x = .error (.unsupported "statement" ⟨2, 1⟩) := by
  split at h
  · rfl
  · cases h

/-- A file of two lines with another one behind it that declares something, and with one that holds
a statement in its second line. -/
theorem extract_append_lines :
    extract ("let x:\n A;" ++ "\n" ++ "var y: B") =
        .ok ([.property "x" "A"] ++ [.property "y" "B"]) ∧
      extract ("let x:\n A;" ++ "\n" ++ "var y: B\n f()") =
        .error (.unsupported "statement" ⟨4, 1⟩) := by
  have ha : extract "let x:\n A;" = .ok [.property "x" "A"] :=
    eq_property_of_nameAndType? (by decide +kernel)
  have hend : EndsInSemicolon (withoutMark "let x:\n A;".toList) := by
    have hsome : ((Lexer.tokens? (withoutMark "let x:\n A;".toList)).map fun ts =>
        ts.getLast?.map Token.lexeme) = some (some (.symbol ";")) := by decide +kernel
    exact Option.map_eq_some_iff.1 hsome
  exact ⟨(extract_append ha hend (by decide) (by decide)).1 _
      (eq_property_of_nameAndType? (by decide +kernel)),
    (extract_append ha hend (by decide) (by decide)).2 _ _
      (eq_statement_of_matches (by decide +kernel))⟩

end ApiSurface
