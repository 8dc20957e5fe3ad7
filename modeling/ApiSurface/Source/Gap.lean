/-! Gaps between tokens: white space and comments. -/
namespace ApiSurface.Source

def isLineBreak (c : Char) : Bool := ['\n', '\r', '\u2028', '\u2029'].contains c

/-- White space that ends no line. -/
def isBlank (c : Char) : Bool :=
  ['\t', '\u000b', '\u000c', ' ', '\u00a0', '\u1680', '\u202f', '\u205f', '\u3000',
    '\ufeff'].contains c || ('\u2000' ≤ c && c ≤ '\u200a')

/-- Where in a gap a reader stands. -/
inductive Gap
  | space
  | lineComment
  | blockComment

namespace Gap

/-- The text behind a gap, and whether a line ends in the gap. A block comment has to be closed. -/
def skip : Gap → Bool → List Char → Option (Bool × List Char)
  | space, broken, '/' :: '/' :: cs => skip lineComment broken cs
  | space, broken, '/' :: '*' :: cs => skip blockComment broken cs
  | space, broken, c :: cs =>
    if isLineBreak c then skip space true cs
    else if isBlank c then skip space broken cs
    else some (broken, c :: cs)
  | space, broken, [] => some (broken, [])
  | lineComment, broken, c :: cs =>
    if isLineBreak c then skip space true cs else skip lineComment broken cs
  | lineComment, broken, [] => some (broken, [])
  | blockComment, broken, '*' :: '/' :: cs => skip space broken cs
  | blockComment, broken, c :: cs => skip blockComment (broken || isLineBreak c) cs
  | blockComment, _, [] => none

@[simp] theorem skip_nil (broken : Bool) : skip space broken [] = some (broken, []) := by
  simp [skip]

/-- A gap only takes from the front. -/
theorem skip_suffix {g : Gap} {b b' : Bool} {cs rest : List Char}
    (h : skip g b cs = some (b', rest)) : rest <:+ cs := by
  have behind : ∀ {c : Char} {xs : List Char}, rest <:+ xs → rest <:+ c :: xs :=
    fun hs => hs.trans (List.suffix_cons _ _)
  fun_induction skip g b cs with
  | case1 _ _ ih => exact behind (behind (ih h))
  | case2 _ _ ih => exact behind (behind (ih h))
  | case3 _ _ _ _ _ _ ih => exact behind (ih h)
  | case4 _ _ _ _ _ _ _ ih => exact behind (ih h)
  | case5 => cases h; exact List.suffix_refl _
  | case6 => cases h; exact List.suffix_refl _
  | case7 _ _ _ _ ih => exact behind (ih h)
  | case8 _ _ _ _ ih => exact behind (ih h)
  | case9 => cases h; exact List.suffix_refl _
  | case10 _ _ ih => exact behind (behind (ih h))
  | case11 _ _ _ _ ih => exact behind (ih h)
  | case12 => cases h

end Gap
end ApiSurface.Source
