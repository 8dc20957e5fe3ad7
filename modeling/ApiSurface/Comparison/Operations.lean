import ApiSurface.Comparison.Alignment

/-! Operations on two lists. The blocks of an alignment are told as operations on parts of the
lists: kept blocks next to each other are one equality, and whatever is dropped and added before the
next kept block is one deletion, one insertion, or one replacement. -/
namespace ApiSurface

/-- A part of a list. -/
structure Span where
  start : Nat
  length : Nat
  deriving Repr, DecidableEq

namespace Span

/-- The values of a list in a part of it. -/
def slice {α : Type} (s : Span) (vs : List α) : List α := (vs.drop s.start).take s.length

/-- A part that goes on for some values more. -/
def extend (s : Span) (n : Nat) : Span := { s with length := s.length + n }

end Span

/-- An operation by which an old list becomes a new one. -/
inductive Operation
  | equal
  | delete (old : Span)
  | insert (new : Span)
  | replace (old new : Span)
  deriving Repr, DecidableEq

/-- What of the blocks has not been told yet, and how far they have come in both lists. -/
structure Pending where
  oldIndex : Nat
  newIndex : Nat
  /-- Kept values have not been told. -/
  equal : Bool
  deleted : Option Span
  inserted : Option Span
  deriving Repr, DecidableEq

namespace Pending

def start : Pending := ⟨0, 0, false, none, none⟩

def flushEqual (p : Pending) : List Operation := if p.equal then [.equal] else []

/-- What is deleted and what is inserted at one place is told together. -/
def flushGap (p : Pending) : List Operation :=
  match p.deleted, p.inserted with
  | some d, some i => [.replace d i]
  | some d, none => [.delete d]
  | none, some i => [.insert i]
  | none, none => []

/-- Behind `n` kept values, when the gap before them has been told. -/
def keep (p : Pending) (n : Nat) : Pending :=
  ⟨p.oldIndex + n, p.newIndex + n, true, none, none⟩

/-- Behind `n` dropped values, when the kept ones before them have been told. -/
def drop (p : Pending) (n : Nat) : Pending where
  oldIndex := p.oldIndex + n
  newIndex := p.newIndex
  equal := false
  deleted := some ((p.deleted.getD ⟨p.oldIndex, 0⟩).extend n)
  inserted := p.inserted

/-- Behind `n` added values, in the same way. -/
def add (p : Pending) (n : Nat) : Pending where
  oldIndex := p.oldIndex
  newIndex := p.newIndex + n
  equal := false
  deleted := p.deleted
  inserted := some ((p.inserted.getD ⟨p.newIndex, 0⟩).extend n)

/-- The operations of what is pending and of the blocks that follow. -/
def operations {α : Type} (p : Pending) : List (Edit α) → List Operation
  | [] => p.flushEqual ++ p.flushGap
  | .keep vs :: es => p.flushGap ++ (p.keep vs.length).operations es
  | .drop vs :: es => p.flushEqual ++ (p.drop vs.length).operations es
  | .add vs :: es => p.flushEqual ++ (p.add vs.length).operations es

end Pending

/-- The operations by which one list becomes another. -/
def Edit.operations {α : Type} [DecidableEq α] (old new : List α) : List Operation :=
  Pending.start.operations (align old new)

end ApiSurface
