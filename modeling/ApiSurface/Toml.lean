/-! Settings as TOML values. A table remembers how it came about, because that decides what may
still be put into it. -/
namespace ApiSurface

namespace Toml

/-- How a table came about. -/
inductive Origin
  /-- It has a header of its own, or it is the whole document. -/
  | header
  /-- Only headers of tables inside it have named it. -/
  | implied
  /-- Dotted keys have named it. -/
  | dotted
  /-- It stands between braces. -/
  | inline
  /-- Dotted keys between braces have named it. -/
  | inlineDotted
  deriving Repr, DecidableEq

/-- Dotted keys may lead through the table. -/
def Origin.isImplicit : Origin → Bool
  | implied | dotted | inlineDotted => true
  | header | inline => false

/-- Dotted keys may put values into the table. -/
def Origin.isDotted : Origin → Bool
  | dotted | inlineDotted => true
  | header | implied | inline => false

/-- The table is a value, closed to everything outside its braces. -/
def Origin.isInline : Origin → Bool
  | inline | inlineDotted => true
  | header | implied | dotted => false

end Toml

inductive Toml
  | string (value : String)
  | boolean (value : Bool)
  /-- An integer or a float. -/
  | number
  /-- A date, a time or both. -/
  | dateTime
  | array (items : List Toml)
  /-- The tables of one array header, each with its entries. -/
  | tables (items : List (List (String × Toml)))
  | table (origin : Toml.Origin) (entries : List (String × Toml))
  deriving Repr, Inhabited

namespace Toml

/-- The entries of a table, in the order they were put in. -/
abbrev Entries := List (String × Toml)

def find? (key : String) (es : Entries) : Option Toml := (es.find? (·.1 = key)).map (·.2)

/-- Put another value in the place of a key. -/
def replace (key : String) (v : Toml) (es : Entries) : Entries :=
  es.map fun e => if e.1 = key then (key, v) else e

/-- Change the last item of a list. -/
def changeLast {α : Type} (f : α → Option α) : List α → Option (List α)
  | [] => none
  | [a] => return [← f a]
  | a :: as => return a :: (← changeLast f as)

/-- Put a value under a dotted key. Tables on the way are made as needed, and a key is given once
only. -/
def insert (fresh : Origin) (v : Toml) : List String → Entries → Option Entries
  | [], _ => none
  | [k], es => if (find? k es).isSome then none else some (es ++ [(k, v)])
  | k :: ks, es =>
    match find? k es with
    | none => return es ++ [(k, table fresh (← insert fresh v ks []))]
    | some (table o sub) =>
      if o.isImplicit && (o.isDotted || ks.length ≠ 1) then
        return replace k (table o (← insert fresh v ks sub)) es
      else none
    | some (tables ts) =>
      if ks.length ≠ 1 then return replace k (tables (← changeLast (insert fresh v ks) ts)) es
      else none
    | some _ => none

/-- Change what a header leads to. Tables on the way are made as needed, and of several tables under
one array header the last one is meant. -/
def descend (change : Entries → Option Entries) : List String → Entries → Option Entries
  | [], es => change es
  | k :: ks, es =>
    match find? k es with
    | none => return es ++ [(k, table .implied (← descend change ks []))]
    | some (table o sub) =>
      if o.isInline then none else return replace k (table o (← descend change ks sub)) es
    | some (tables ts) => return replace k (tables (← changeLast (descend change ks) ts)) es
    | some _ => none

/-- Open the table of a header. It may not have been named by a header or by dotted keys before. -/
def openTable (key : String) (es : Entries) : Option Entries :=
  match find? key es with
  | none => some (es ++ [(key, table .header [])])
  | some (table .implied sub) => some (es.filter (·.1 ≠ key) ++ [(key, table .header sub)])
  | some _ => none

/-- Open one more table under an array header. -/
def openItem (key : String) (es : Entries) : Option Entries :=
  match find? key es with
  | none => some (es ++ [(key, tables [[]])])
  | some (tables ts) => some (replace key (tables (ts ++ [[]])) es)
  | some _ => none

end Toml
end ApiSurface
