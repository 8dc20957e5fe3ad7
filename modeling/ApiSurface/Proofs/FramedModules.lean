import ApiSurface.Proofs.FramedItems

/-! Whole modules on framed tokens. Grammars that are unfolded deep enough agree in every frame, by
induction on the number of tokens. From this follows what one item at the top reads, and from that
what all items read: the items of a module that declares something are also read in front of the
items of another, and these are read as if they stood alone. -/
namespace ApiSurface.Source
open Parse

section Depth

variable {F : Frame} {α : Type} [Placed α]

/-- Parsers of few tokens follow if they do as other parsers that follow. -/
theorem Follows.within {last : Bool} {s : List Bracket} {p p' : Parse α} {n : Nat}
    (h : ∀ ts : List Token, ts.length < n → ∃ q q' : Parse α,
      Follows F last s s q q' ∧ p ts = q ts ∧ p' (F.lay ts) = q' (F.lay ts)) :
    Follows F last s s (p.within n) (p'.within (n + F.behind.length)) := by
  refine ⟨fun {ts rest a} e => ?_, fun {ts rest a} e hs => ?_, fun {ts} hs => ?_⟩
  · unfold Parse.within at e
    split at e
    · next hl =>
      obtain ⟨q, q', hq, hp, -⟩ := h ts hl
      exact hq.balances (hp ▸ e)
    · cases e
  · unfold Parse.within at e
    split at e
    · next hl =>
      obtain ⟨q, q', hq, hp, -⟩ := h ts hl
      exact hq.leaves (hp ▸ e) hs
    · cases e
  · simp only [Parse.within, Frame.length_lay, Nat.add_lt_add_iff_right]
    split
    · next hl =>
      obtain ⟨q, q', hq, hp, hp'⟩ := h ts hl
      rw [hp, hp', hq.same hs]
    · rfl

end Depth

/-- Where grammars are unfolded at least twice for every token, they agree. -/
theorem agree_within (F : Frame) {m n k k' : Nat} (hn : n ≤ m) (hm : m ≤ n + 1)
    (hk : m + n ≤ k) (hk' : m + n + 2 * F.behind.length ≤ k') :
    Agree F ((grammar k).within m n)
      ((grammar k').within (m + F.behind.length) (n + F.behind.length)) := by
  induction hw : m + n using Nat.strongRecOn generalizing m n k k' with
  | ind w ih =>
    subst hw
    rcases Nat.eq_zero_or_pos m with rfl | hpos
    · obtain rfl : n = 0 := by omega
      constructor <;> intros <;> dsimp only [Grammar.within] <;> apply Follows.within <;>
        exact fun _ hl => absurd hl (Nat.not_lt_zero _)
    obtain ⟨k, rfl⟩ : ∃ j, k = j + 1 := ⟨k - 1, by omega⟩
    obtain ⟨k', rfl⟩ : ∃ j, k' = j + 1 := ⟨k' - 1, by omega⟩
    have hnested (ts : List Token) (hl : ts.length < m) :
        Agree F ((grammar k).nested ts) ((grammar k').nested (F.lay ts)) := by
      rw [Grammar.nested, Grammar.nested, Frame.length_lay]
      exact ih (ts.length + ts.length) (by omega) le_rfl (by omega) (by omega) (by omega) rfl
    have hgoverned (ts : List Token) (hl : ts.length < n) :
        Agree F ((grammar k).governed ts) ((grammar k').governed (F.lay ts)) := by
      rw [Grammar.governed, Grammar.governed, Frame.length_lay, Nat.add_right_comm]
      exact ih (ts.length + 1 + ts.length) (by omega) (by omega) le_rfl (by omega) (by omega) rfl
    exact
      { type := fun c s => .within fun ts hl =>
          ⟨_, _, .typeRule (hnested ts hl) c, rfl, rfl⟩
        typeOperand := fun c s => .within fun ts hl =>
          ⟨_, _, .typeOperandRule (hnested ts hl) c, rfl, rfl⟩
        assignment := fun i s => .within fun ts hl =>
          ⟨_, _, .assignmentRule (hnested ts hl) i, rfl, rfl⟩
        unary := fun s => .within fun ts hl => ⟨_, _, .unaryRule (hnested ts hl), rfl, rfl⟩
        leftHand := fun s => .within fun ts hl => ⟨_, _, .leftHandRule (hnested ts hl), rfl, rfl⟩
        binding := fun d s => .within fun ts hl =>
          ⟨_, _, .bindingRule (hnested ts hl) d, rfl, rfl⟩
        classRest := fun a s => .within fun ts hl =>
          ⟨_, _, .classRestRule (hnested ts hl) a, rfl, rfl⟩
        statement := fun f _ hs => .within fun ts hl =>
          ⟨_, _, .statementRule (hgoverned ts hl) hs f, rfl, rfl⟩
        item := fun hs => .within fun ts hl => ⟨_, _, .itemRule (hgoverned ts hl) hs, rfl, rfl⟩ }

/-! Items at the top. -/

/-- Two parsers at the top, the second of framed tokens, that hand on the same results of some sort.
All brackets match in what the first one takes, which may be all there is. -/
def Passes (F : Frame) {α : Type} [Placed α] (P : α → Prop) (p p' : Parse α) : Prop :=
  ∀ ⦃ts rest : List Token⦄ ⦃a : α⦄, F.Sees [] ts → p ts = some (a, rest) → P a →
    Spans [] [] ts rest ∧ (F.Sees [] rest ∨ rest = []) ∧
      p' (F.lay ts) = some (move F.move a, F.lay rest)

section Passes

variable {F : Frame} {α β : Type} [Placed α] [Placed β] {P : β → Prop}

namespace Passes

theorem of_follows {p p' : Parse β} (h : Follows F true [] [] p p') : Passes F P p p' := by
  intro ts rest a hs e _
  refine ⟨h.balances e, (h.leaves e hs).imp_right (·.2), ?_⟩
  rw [h.same hs, e]
  rfl

theorem bind {p p' : Parse α} {k k' : α → Parse β} (hp : Follows F false [] [] p p')
    (hk : ∀ a, Passes F P (k a) (k' (move F.move a))) : Passes F P (p >>= k) (p' >>= k') := by
  intro ts rest b hs e hb
  obtain ⟨a, mid, ha, e⟩ := bind_eq_some.1 e
  obtain ⟨hbal, hrest, hsame⟩ := hk a (Follows.keeps hp ha hs) e hb
  refine ⟨(hp.balances ha).trans hbal, hrest, ?_⟩
  rw [bind_apply, hp.same hs, ha]
  exact hsame

theorem ite {c : Prop} [Decidable c] {p p' q q' : Parse β} (hp : Passes F P p p')
    (hq : Passes F P q q') : Passes F P (if c then p else q) (if c then p' else q') := by
  split
  · exact hp
  · exact hq

/-- A parser that goes on with what is not of the sort, where the first tells nothing. -/
theorem bindOption {p p' : Parse (Option α)} {k k' : Option α → Parse β}
    (hp : Follows F true [] [] p p')
    (hsome : ∀ a, Still F (k (some a)) (k' (some (move F.move a))))
    (hnone : Yields (k none) fun b => ¬P b) : Passes F P (p >>= k) (p' >>= k') := by
  intro ts rest b hs e hb
  obtain ⟨a?, mid, ha, e⟩ := bind_eq_some.1 e
  cases a? with
  | none => exact absurd hb (hnone e)
  | some a =>
    obtain rfl := (hsome a).eq_of_eq_some e
    refine ⟨hp.balances ha, (hp.leaves ha hs).imp_right (·.2), ?_⟩
    rw [bind_apply, hp.same hs, ha]
    exact ((hsome a).apply rest).trans (by rw [e]; rfl)

/-- A semicolon may be the last one. -/
theorem ifSemicolon {b b' : β} {q q' : Parse β} (hb : move F.move b = b')
    (hq : Passes F P q q') :
    Passes F P (Parse.takesSymbol ";" >>= fun c => if c = true then Pure.pure b else q)
      (Parse.takesSymbol ";" >>= fun c => if c = true then Pure.pure b' else q') := by
  intro ts rest a hs e ha
  obtain ⟨hc, e⟩ | ⟨hc, e⟩ := takes_ite_eq_some.1 e
  · obtain ⟨t, ts, rfl, ht⟩ := Ahead.symbol_iff.1 hc
    have hshift : t.lexeme.shift [] = some [] := by rw [ht]; rfl
    cases e
    refine ⟨.cons hshift .refl, hs.tail_or_nil hshift, ?_⟩
    exact takes_ite_eq_some.2 (.inl ⟨hc, by rw [← hb]; rfl⟩)
  · obtain ⟨hbal, hrest, hsame⟩ := hq hs e ha
    exact ⟨hbal, hrest, takes_ite_eq_some.2
      (.inr ⟨(Ahead.local_symbol ";" hs.guards).trans hc, hsame⟩)⟩

end Passes

/-- The item declares something, or nothing, but it is not refused. -/
def Item.Accepted (i : Item) : Prop := ∃ ds, i.declarations = .ok ds

section Items

variable {g g' : Grammar} (h : Agree F g g')

include h

theorem Passes.statementRule (f : Flow) :
    Passes F Item.Accepted (g.statementRule f) (g'.statementRule f) :=
  bind .offset fun start => ifSemicolon rfl <|
    bind (.decorators h) fun _ => ite (of_follows (Follows.weaken (Follows.decoratedClass h))) <|
    bind (.takes (by simp)) fun _ => ite (of_follows (.usingRest h (.inl rfl) start)) <|
    bind (.takes (by simp)) fun _ =>
      ite (of_follows (Follows.bind Follows.word fun _ => Follows.usingRest h (.inl rfl) start)) <|
    bindOption (.declaration h (.inl rfl)) (fun _ => Still.pure)
      (Yields.bind fun _ => Yields.pure nofun)

theorem Passes.itemRule : Passes F Item.Accepted g.itemRule g'.itemRule :=
  bind (.attempt (.decoratedExport h)) fun decorated =>
    bind (.takes (by simp)) fun _ =>
      ite (of_follows (Follows.bindStill (Follows.importRest (.inl rfl)) fun _ => Still.pure)) <|
    bind .takesWord fun _ => ite (of_follows (.exported (.inl rfl) h decorated)) <|
    statementRule h .top

end Items

/-! All items. -/

/-- What is read at the top is also read in front of what stands behind the frame, and this is read
as if it stood alone. -/
theorem during_lay {P : α → Prop} {p p' : Parse α} {n : Nat}
    (hp : ∀ ts : List Token, ts.length < n → ∃ q q' : Parse α,
      Passes F P q q' ∧ p ts = q ts ∧ p' (F.lay ts) = q' (F.lay ts))
    {ts rest : List Token} {as : List α} (hl : ts.length < n) (hs : F.Sees [] ts ∨ ts = [])
    (e : during (fun rest => !rest.isEmpty) p ts = some (as, rest)) (has : ∀ a ∈ as, P a) :
    rest = [] ∧ brackets [] ts = some [] ∧
      during (fun rest => !rest.isEmpty) p' (F.lay ts) =
        (during (fun rest => !rest.isEmpty) p' F.behind).map fun x =>
          (move F.move as ++ x.1, x.2) := by
  induction hw : ts.length using Nat.strongRecOn generalizing ts as with
  | ind w ih =>
    subst hw
    cases ts with
    | nil =>
      rw [during_of_false rfl] at e
      cases e
      refine ⟨rfl, rfl, ?_⟩
      show during _ p' F.behind = _
      cases during (fun rest => !rest.isEmpty) p' F.behind <;> rfl
    | cons t ts =>
      have hs : F.Sees [] (t :: ts) := hs.resolve_right nofun
      rw [during_of_true rfl, Option.bind_eq_some_iff] at e
      obtain ⟨⟨a, mid⟩, ha, e⟩ := e
      obtain ⟨hlt : mid.length < (t :: ts).length, e⟩ := Option.ite_none_right_eq_some.1 e
      obtain ⟨⟨as', rest'⟩, has', e⟩ := Option.map_eq_some_iff.1 e
      cases e
      obtain ⟨q, q', hq, he, he'⟩ := hp (t :: ts) hl
      obtain ⟨hbal, hmid, hsame⟩ := hq hs (he ▸ ha) (has a (by simp))
      obtain ⟨hrest, hbrackets, hmore⟩ := ih mid.length hlt (hlt.trans hl) hmid has'
        (fun b hb => has b (by simp [hb])) rfl
      have hlay : (F.lay mid).length < (F.lay (t :: ts)).length := by
        rw [Frame.length_lay, Frame.length_lay]
        omega
      refine ⟨hrest, hbal.brackets_eq.trans hbrackets, ?_⟩
      rw [during_of_true (by simp), he', hsame, Option.bind_some, if_pos hlay, hmore,
        Option.map_map]
      rfl

/-- The items of a module are read in every frame, if they all declare something or nothing stands
behind the frame. -/
theorem items_lay (F : Frame) {P : Item → Prop}
    (hP : (∀ i, P i → i.Accepted) ∨ F.behind = []) {ts : List Token} {items : List Item}
    (hs : F.Sees [] ts) (e : items? ts = some items) (hitems : ∀ i ∈ items, P i) {k : Nat}
    (hk : depthBound (F.lay ts) ≤ k) :
    brackets [] ts = some [] ∧
      during (fun rest => !rest.isEmpty) (grammar k).item (F.lay ts) =
        (during (fun rest => !rest.isEmpty) (grammar k).item F.behind).map fun x =>
          (move F.move items ++ x.1, x.2) := by
  obtain ⟨⟨as, rest⟩, eread, rfl⟩ := Option.map_eq_some_iff.1 e
  obtain ⟨k, rfl⟩ : ∃ j, k = j + 1 := ⟨k - 1, by rw [depthBound] at hk; omega⟩
  rw [depthBound, Frame.length_lay] at hk
  refine (during_lay (n := ts.length + 1) (fun us hl => ?_) (Nat.lt_succ_self _) (.inl hs)
    eread hitems).2
  have hagree : Agree F ((grammar (4 * ts.length + 3)).governed us)
      ((grammar k).governed (F.lay us)) := by
    rw [Grammar.governed, Grammar.governed, Frame.length_lay, Nat.add_right_comm]
    exact agree_within F (Nat.le_succ _) le_rfl (by omega) (by omega)
  refine ⟨((grammar (4 * ts.length + 3)).governed us).itemRule,
    ((grammar k).governed (F.lay us)).itemRule, ?_, rfl, rfl⟩
  obtain hP | hP := hP
  · exact fun us rest i hs e hi => Passes.itemRule hagree hs e (hP i hi)
  · exact Passes.of_follows (Follows.weaken (Follows.itemRule hagree (.inr hP)))

/-- In a module all brackets match. -/
theorem brackets_of_items? {ts : List Token} {items : List Item} (h : items? ts = some items) :
    brackets [] ts = some [] :=
  (items_lay ⟨id, [], none⟩ (P := fun _ => True) (.inr rfl) ⟨.inl rfl, nofun⟩ h
    (fun _ _ => trivial) le_rfl).1

/-- Two modules in a row, of which the first ends with a semicolon. -/
theorem items?_append {ts ts' : List Token} {items items' : List Item} (f : Nat → Nat)
    (h : items? ts = some items) (haccepted : ∀ i ∈ items, i.Accepted)
    (hlast : ts.getLast?.map Token.lexeme = some (.symbol ";")) (h' : items? ts' = some items') :
    items? (ts ++ ts'.map (·.move f)) = some (move id items ++ move f items') := by
  let whole := ts ++ ts'.map (·.move f)
  -- The second module, with nothing behind it.
  let F₂ : Frame := ⟨f, [], none⟩
  have hlay₂ : F₂.lay ts' = ts'.map (·.move f) := List.append_nil _
  have hdepth : depthBound (F₂.lay ts') ≤ depthBound whole := by
    rw [hlay₂]
    simp only [depthBound, whole, List.length_append, List.length_map]
    omega
  have hread₂ : during (fun rest => !rest.isEmpty) (grammar (depthBound whole)).item
      (ts'.map (·.move f)) = some (move f items', []) := by
    rw [← hlay₂, (items_lay F₂ (P := fun _ => True) (.inr rfl) ⟨.inl rfl, nofun⟩ h'
      (fun _ _ => trivial) hdepth).2]
    show Option.map _ (during _ _ []) = _
    rw [during_of_false rfl]
    simp [F₂]
  -- The first one, before the second.
  let F₁ : Frame := ⟨id, ts'.map (·.move f), none⟩
  have hlay₁ : F₁.lay ts = whole := congrArg (· ++ _) (List.map_id _)
  have hread₁ := (items_lay F₁ (.inl fun _ h => h)
    ⟨.inr ⟨brackets_of_items? h, hlast⟩, nofun⟩ h haccepted (congrArg depthBound hlay₁).le).2
  rw [hlay₁] at hread₁
  rw [items?, hread₁, hread₂]
  simp [F₁]

end Passes
end ApiSurface.Source
