import ApiSurface.Proofs.Concatenation
import ApiSurface.Proofs.Equivalence
import ApiSurface.Proofs.Layout

/-! Declaration files that are laid out anew. The grammar is not concerned with the places of
tokens, so the items of a file are the same wherever its tokens start, and a file with other gaps
between its tokens has the same structure or is refused for the same reason. -/
namespace ApiSurface
open Source

/-! Items at other places. -/

namespace Source
open Parse

section Moved

variable (f : Nat → Nat)

/-- What is read again and again from moved tokens is moved, if what is read at once is. -/
theorem during_move {α : Type} [Placed α] {p p' : Parse α} {n : Nat}
    (hp : ∀ ts : List Token, ts.length < n →
      p' (ts.map (·.move f)) = (p ts).map fun x => (move f x.1, x.2.map (·.move f)))
    {ts : List Token} (hl : ts.length < n) :
    during (fun rest => !rest.isEmpty) p' (ts.map (·.move f)) =
      (during (fun rest => !rest.isEmpty) p ts).map fun x =>
        (move f x.1, x.2.map (·.move f)) := by
  induction hw : ts.length using Nat.strongRecOn generalizing ts with
  | ind w ih =>
    subst hw
    cases ts with
    | nil => rw [List.map_nil, during_of_false rfl, during_of_false rfl]; rfl
    | cons t ts =>
      rw [during_of_true rfl, during_of_true rfl, hp (t :: ts) hl]
      cases p (t :: ts) with
      | none => rfl
      | some x =>
        simp only [Option.map_some, Option.bind_some, List.length_map]
        split
        · next hlt =>
          rw [ih x.2.length hlt (Nat.lt_trans hlt hl) rfl, Option.map_map, Option.map_map]
          rfl
        · rfl

/-- The items of moved tokens are the moved items. -/
theorem items?_move (ts : List Token) :
    items? (ts.map (·.move f)) = (items? ts).map (move f) := by
  let F : Frame := ⟨f, [], none⟩
  have hlay (us : List Token) : F.lay us = us.map (·.move f) := List.append_nil _
  have hitem (us : List Token) (hl : us.length < ts.length + 1) :
      (grammar (depthBound ts)).item (us.map (·.move f)) =
        ((grammar (depthBound ts)).item us).map fun x => (move f x.1, x.2.map (·.move f)) := by
    have hagree : Agree F ((grammar (4 * ts.length + 3)).governed us)
        ((grammar (4 * ts.length + 3)).governed (F.lay us)) := by
      rw [Grammar.governed, Grammar.governed, Frame.length_lay, Nat.add_right_comm]
      exact agree_within F (Nat.le_succ _) le_rfl (by omega) (by simp [F]; omega)
    have hsame := (Follows.itemRule hagree (.inr rfl)).same
      (⟨.inl rfl, fun n hn => by cases hn⟩ : F.Sees [] us)
    simp only [hlay] at hsame
    exact hsame
  have hdepth : depthBound (ts.map (·.move f)) = depthBound ts := by
    rw [depthBound, depthBound, List.length_map]
  rw [items?, items?, hdepth, during_move f hitem (Nat.lt_succ_self _), Option.map_map,
    Option.map_map]
  rfl

end Moved

/-- The items of a text depend on its tokens, but not on their places. -/
theorem parse?_congr {cs cs' : List Char}
    (h : (Lexer.tokens? cs).map (fun ts => ts.map (·.move fun _ => 0)) =
      (Lexer.tokens? cs').map fun ts => ts.map (·.move fun _ => 0)) :
    (parse? cs).map (move fun _ => 0) = (parse? cs').map (move fun _ => 0) := by
  have hparse (cs : List Char) : (parse? cs).map (move fun _ => 0) =
      ((Lexer.tokens? cs).map fun ts => ts.map (·.move fun _ => 0)).bind items? := by
    rw [parse?]
    cases Lexer.tokens? cs with
    | none => rfl
    | some ts => exact (items?_move (fun _ => 0) ts).symm
  rw [hparse, hparse, h]

/-- Texts that are laid out anew behind the line that names an interpreter have the same tokens. -/
theorem Lexer.tokens?_relaid {cs cs' : List Char}
    (h : Relaid none [] (skipInterpreter cs) (skipInterpreter cs')) :
    (tokens? cs).map (fun ts => ts.map (·.move fun _ => 0)) =
      (tokens? cs').map fun ts => ts.map (·.move fun _ => 0) :=
  h.placeless_eq (Nat.lt_succ_of_le (skipInterpreter_suffix cs).length_le)
    (Nat.lt_succ_of_le (skipInterpreter_suffix cs').length_le)

end Source

/-! Files. -/

/-- A file without the mark that may open it and without a first line that names an interpreter. -/
def programText (source : String) : List Char := Lexer.skipInterpreter (withoutMark source.toList)

/-- Two files have the same structure, or both are no declaration files, or both hold a construct of
the same kind that stands for no declaration, wherever it stands. -/
inductive SameOutcome : Except Fault Structure → Except Fault Structure → Prop
  | structures (s : Structure) : SameOutcome (.ok s) (.ok s)
  | grammar (message : String) :
      SameOutcome (.error (.grammar message)) (.error (.grammar message))
  | unsupported (construct : String) (l l' : Location) :
      SameOutcome (.error (.unsupported construct l)) (.error (.unsupported construct l'))

theorem sameOutcome_of_structureOf {items items' : List Item}
    (h : move (fun _ => 0) items = move (fun _ => 0) items') (text text' : List Char) :
    SameOutcome ((structureOf items).mapError (·.located text))
      ((structureOf items').mapError (·.located text')) := by
  have hmove : (structureOf items).mapError (·.move fun _ => 0) =
      (structureOf items').mapError (·.move fun _ => 0) := by
    rw [← structureOf_move, ← structureOf_move, h]
  cases hs : structureOf items with
  | ok s =>
    rw [hs] at hmove
    rw [Except.mapError_eq_ok.1 hmove.symm]
    exact .structures s
  | error r =>
    rw [hs] at hmove
    obtain ⟨r', hr', hplaceless⟩ := Except.mapError_eq_error.1 hmove.symm
    have hconstruct : r'.construct = r.construct := (Refusal.mk.inj hplaceless).1
    rw [hr', Except.mapError_error, Except.mapError_error, Refusal.located, Refusal.located,
      hconstruct]
    exact .unsupported _ _ _

theorem extract_of_parse?_eq_none {source : String}
    (h : parse? (withoutMark source.toList) = none) :
    extract source = .error (.grammar "the text is no declaration file") := by
  have hitems : itemsOf (withoutMark source.toList) =
      .error (.grammar "the text is no declaration file") := by rw [itemsOf, h]
  rw [extract, hitems]
  rfl

/-- A file that is laid out anew, with other white space and other comments that part its tokens and
end lines at the same places, has the same structure, or is refused for the same reason; so
comparing the two structures tells no change. -/
theorem extract_relaid {source source' : String}
    (h : Lexer.Relaid none [] (programText source) (programText source')) :
    SameOutcome (extract source) (extract source') ∧
      ∀ s s' dedupe, extract source = .ok s → extract source' = .ok s' →
        Comparison.compare dedupe s s' = [] := by
  have hparse := parse?_congr (Lexer.tokens?_relaid h)
  have houtcome : SameOutcome (extract source) (extract source') := by
    cases hitems : parse? (withoutMark source.toList) with
    | none =>
      rw [hitems, Option.map_none] at hparse
      rw [extract_of_parse?_eq_none hitems,
        extract_of_parse?_eq_none (Option.map_eq_none_iff.1 hparse.symm)]
      exact .grammar _
    | some items =>
      rw [hitems, Option.map_some] at hparse
      obtain ⟨items', hitems', hmove⟩ := Option.map_eq_some_iff.1 hparse.symm
      rw [extract_of_parse? rfl hitems, extract_of_parse? rfl hitems']
      exact sameOutcome_of_structureOf hmove.symm _ _
  refine ⟨houtcome, fun s s' dedupe hs hs' => ?_⟩
  rw [hs, hs'] at houtcome
  cases houtcome
  exact (Comparison.compare_eq_nil_iff dedupe s s).2 fun _ => Comparison.agrees_refl _

/-- A line with a comment in front of it and another one in the place of a blank. -/
theorem extract_relaid_comments :
    Lexer.Relaid none [] (programText "let x: A") (programText "// x\nlet/* y */x: A") ∧
      SameOutcome (extract "let x: A") (extract "// x\nlet/* y */x: A") ∧
        extract "// x\nlet/* y */x: A" = .ok [.property "x" "A"] := by
  have hline : IsGap false ['/', '/', ' ', 'x', '\n'] :=
    @IsGap.lineComment false [' ', 'x'] [] '\n' (by simp [isLineBreak]) (by decide) .nil
  have hblock : IsGap false ['/', '*', ' ', 'y', ' ', '*', '/'] :=
    @IsGap.blockComment false [' ', 'y', ' '] [] (by decide) .nil
  have hfirst : AlikeGaps none [] ['/', '/', ' ', 'x', '\n'] := ⟨.nil, hline, by simp, by simp⟩
  have hsecond : AlikeGaps (some (.word "let")) [' '] ['/', '*', ' ', 'y', ' ', '*', '/'] :=
    ⟨.space (.inr (by decide)) .nil, hblock, by decide, by decide⟩
  have htext : programText "let x: A" =
      [] ++ (['l', 'e', 't'] ++ ([' '] ++ ['x', ':', ' ', 'A'])) := by decide +kernel
  have htext' : programText "// x\nlet/* y */x: A" = ['/', '/', ' ', 'x', '\n'] ++
      (['l', 'e', 't'] ++ (['/', '*', ' ', 'y', ' ', '*', '/'] ++ ['x', ':', ' ', 'A'])) := by
    decide +kernel
  have hrelaid : Lexer.Relaid none [] (programText "let x: A")
      (programText "// x\nlet/* y */x: A") := by
    rw [htext, htext']
    exact .token hfirst (by decide +kernel) (by decide) (by decide) (.same hsecond _)
  have hsame := (extract_relaid hrelaid).1
  exact ⟨hrelaid, hsame, eq_property_of_nameAndType? (by decide +kernel)⟩

end ApiSurface
