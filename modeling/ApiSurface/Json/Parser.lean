import ApiSurface.Json

/-! Reading JSON text. Arrays and objects may nest `maxDepth` deep, a number must fit a
double-precision value, and text that stops too early is told apart from text that is wrong. -/
namespace ApiSurface.Json

/-- Why a text is no JSON value. -/
inductive Fault
  /-- A character that may not stand where it does. -/
  | malformed
  /-- The text ends inside a value. -/
  | truncated
  deriving Repr, DecidableEq

/-- A reader takes a beginning of the text and hands on the rest. -/
abbrev Reader := StateT (List Char) (Except Fault)

namespace Reader

def fail {α : Type} (fault : Fault) : Reader α := fun _ => .error fault

def peek? : Reader (Option Char) := fun cs => .ok (cs.head?, cs)

def skip : Reader Unit := fun cs => .ok ((), cs.tail)

/-- The next character; there must be one. -/
def next : Reader Char
  | [] => .error .truncated
  | c :: cs => .ok (c, cs)

def isBlank (c : Char) : Bool := c = ' ' || c = '\n' || c = '\t' || c = '\r'

def skipBlank : Reader Unit := fun cs => .ok ((), cs.dropWhile isBlank)

/-- The next character that is no blank, left in place. -/
def token? : Reader (Option Char) := do skipBlank; peek?

/-- The remaining letters of `null`, `true` or `false`. -/
def letters : List Char → Reader Unit
  | [] => pure ()
  | c :: cs => do
    let d ← next
    if d = c then letters cs else fail .malformed

/-- The value of a hexadecimal digit. -/
def hexValue? (c : Char) : Option Nat :=
  if c.isDigit then some (c.toNat - 48)
  else if 'a' ≤ c && c ≤ 'f' then some (c.toNat - 87)
  else if 'A' ≤ c && c ≤ 'F' then some (c.toNat - 55)
  else none

/-- How many bytes the text takes. -/
def byteCount (cs : List Char) : Nat := (String.ofList cs).utf8ByteSize

/-- Four hexadecimal digits. A text with fewer than four bytes left ends too early. -/
def unit16 : Reader Nat := fun cs =>
  if byteCount (cs.take 4) < 4 then .error .truncated
  else match cs with
    | a :: b :: c :: d :: rest =>
      match hexValue? a, hexValue? b, hexValue? c, hexValue? d with
      | some a, some b, some c, some d => .ok (((a * 16 + b) * 16 + c) * 16 + d, rest)
      | _, _, _, _ => .error .malformed
    | _ => .error .malformed

/-- The character a high and a low surrogate stand for. -/
def ofSurrogates (high low : Nat) : Char :=
  Char.ofNat (0x10000 + (high - 0xD800) * 0x400 + (low - 0xDC00))

/-- What follows `\u`: one unit, or a surrogate pair in two escapes. -/
def unicodeEscape : Reader Char := do
  let high ← unit16
  if 0xDC00 ≤ high && high ≤ 0xDFFF then fail .malformed
  else if 0xD800 ≤ high && high ≤ 0xDBFF then
    let slash ← next
    if slash ≠ '\\' then fail .malformed
    let letter ← next
    if letter ≠ 'u' then fail .malformed
    let low ← unit16
    if 0xDC00 ≤ low && low ≤ 0xDFFF then pure (ofSurrogates high low) else fail .malformed
  else pure (Char.ofNat high)

/-- What follows a backslash. -/
def escape : Reader Char := do
  match ← next with
  | '"' => pure '"'
  | '\\' => pure '\\'
  | '/' => pure '/'
  | 'b' => pure (Char.ofNat 8)
  | 'f' => pure (Char.ofNat 12)
  | 'n' => pure '\n'
  | 'r' => pure '\r'
  | 't' => pure '\t'
  | 'u' => unicodeEscape
  | _ => fail .malformed

/-- The characters up to the closing quote; `fuel` bounds their number. -/
def stringChars : Nat → Reader (List Char)
  | 0 => fail .truncated
  | fuel + 1 => do
    let c ← next
    if c = '"' then pure []
    else if c = '\\' then return (← escape) :: (← stringChars fuel)
    else if c.toNat < 32 then fail .malformed
    else return c :: (← stringChars fuel)

/-- A string whose opening quote has been read. -/
def stringBody : Reader String := fun cs =>
  (stringChars (cs.length + 1) cs).map fun (s, rest) => (String.ofList s, rest)

/-- The digits at the head of the text. -/
def digits : Reader (List Char) := fun cs =>
  .ok (cs.takeWhile Char.isDigit, cs.dropWhile Char.isDigit)

/-- At least one digit. -/
def someDigits : Reader (List Char) := do
  match ← peek? with
  | none => fail .truncated
  | some c => if c.isDigit then digits else fail .malformed

def natOfDigits (ds : List Char) : Nat := ds.foldl (fun n c => n * 10 + (c.toNat - 48)) 0

/-- The leading digits that fit an unsigned 64-bit number, as a number and a count. -/
def significand : List Char → Nat × Nat
  | ds => go 0 0 ds
where
  go (value count : Nat) : List Char → Nat × Nat
    | [] => (value, count)
    | c :: cs =>
      let value' := value * 10 + (c.toNat - 48)
      if value' < UInt64.size then go value' (count + 1) cs else (value, count)

/-- A number rounded to 53 binary digits, of two equally near ones to the even one. -/
def toDouble (n : Nat) : Nat :=
  let unit := Nat.pow 2 (n.log2 - 52)
  let below := n / unit
  let rest := n % unit
  if unit < 2 * rest || (2 * rest = unit && below % 2 = 1) then (below + 1) * unit else below * unit

/-- The number with these digits and this power of ten is beyond every double-precision value. The
leading digits and the power of ten are rounded, and it is their product that has to fit. -/
def isTooLarge (whole fraction : List Char) (exponent : Int) : Bool :=
  let (value, count) := significand (whole ++ fraction)
  let power := exponent + whole.length - count
  value ≠ 0 && 0 < power &&
    (308 < power ||
      Nat.pow 2 1024 - Nat.pow 2 970 ≤ toDouble value * toDouble (Nat.pow 10 power.toNat))

/-- A number below the bound, of which the rounded parts have a product beyond it. -/
example : isTooLarge ['1'] "7976931348623158".toList 308 = true := by decide +kernel

/-- A number beyond the bound, of which the rounded parts have a product below it. -/
example : isTooLarge "179769313486231581".toList [] 291 = false := by decide +kernel

/-- The digits after a point, when there is a point. -/
def fraction : Reader (Option (List Char)) := do
  match ← peek? with
  | some '.' => skip; return some (← someDigits)
  | _ => pure none

/-- The letter, sign and digits of an exponent, when there is one, and its value. -/
def exponent : Reader (List Char × Int) := do
  match ← peek? with
  | some e =>
    if e = 'e' || e = 'E' then
      skip
      match ← peek? with
      | some '+' => skip; let ds ← someDigits; pure (e :: '+' :: ds, (natOfDigits ds : Int))
      | some '-' => skip; let ds ← someDigits; pure (e :: '-' :: ds, -(natOfDigits ds : Int))
      | _ => let ds ← someDigits; pure (e :: ds, (natOfDigits ds : Int))
    else pure ([], 0)
  | none => pure ([], 0)

/-- A number without its sign. A leading zero stands alone. -/
def magnitude : Reader (List Char) := do
  let whole ← someDigits
  if whole.head? = some '0' && 1 < whole.length then fail .malformed
  let frac ← fraction
  let (expText, exp) ← exponent
  if isTooLarge whole (frac.getD []) exp then fail .malformed
  pure (whole ++ (frac.map ('.' :: ·)).getD [] ++ expText)

def number : Reader Json := do
  match ← peek? with
  | some '-' => skip; return .number (String.ofList ('-' :: (← magnitude)))
  | _ => return .number (String.ofList (← magnitude))

/-- A value that holds no other value. -/
def scalar (c : Char) : Reader Json :=
  if c = 'n' then do skip; letters ['u', 'l', 'l']; pure .null
  else if c = 't' then do skip; letters ['r', 'u', 'e']; pure (.bool true)
  else if c = 'f' then do skip; letters ['a', 'l', 's', 'e']; pure (.bool false)
  else if c = '"' then do skip; return .string (← stringBody)
  else if c = '-' || c.isDigit then number
  else fail .malformed

/-- Whether more follows before the closing sign, which is left in place. A comma stands in front of
whatever is not the first, and `start` checks the sign that it starts with. -/
def hasNext (close : Char) (start : Char → Reader Unit) (first : Bool) : Reader Bool := do
  match ← token? with
  | none => fail .truncated
  | some c =>
    if c = close then pure false
    else if first then do start c; pure true
    else if c = ',' then do
      skip
      match ← token? with
      | none => fail .truncated
      | some d => do start d; pure true
    else fail .malformed

def startItem (c : Char) : Reader Unit := if c = ']' then fail .malformed else pure ()

/-- The opening quote of a name is read. -/
def startField (c : Char) : Reader Unit := if c = '"' then skip else fail .malformed

/-- Whether another item follows in an array. -/
def hasItem (first : Bool) : Reader Bool := hasNext ']' startItem first

/-- Whether another field follows in an object; its opening quote is read too. -/
def hasField (first : Bool) : Reader Bool := hasNext '\x7d' startField first

/-- The colon between the name and the value of a field. -/
def colon : Reader Unit := do
  match ← token? with
  | none => fail .truncated
  | some ':' => skip
  | some _ => fail .malformed

/-- The items of an array and its closing bracket. -/
def items (item : Reader Json) : Nat → Bool → Reader (List Json)
  | 0, _ => fail .truncated
  | fuel + 1, first => do
    if ← hasItem first then return (← item) :: (← items item fuel false)
    else do skip; pure []

/-- The fields of an object and its closing brace. -/
def fields (item : Reader Json) : Nat → Bool → Reader (List (String × Json))
  | 0, _ => fail .truncated
  | fuel + 1, first => do
    if ← hasField first then
      let name ← stringBody
      colon
      return (name, ← item) :: (← fields item fuel false)
    else do skip; pure []

/-- A value in which at most `room` arrays and objects nest. -/
def value (room : Nat) : Reader Json := do
  match ← token? with
  | none => fail .truncated
  | some c =>
    if c = '[' || c = '\x7b' then
      match room with
      | 0 => fail .malformed
      | room + 1 =>
        skip
        let fuel := (← get).length + 1
        if c = '[' then return .array (← items (value room) fuel true)
        else return .object (← fields (value room) fuel true)
    else scalar c

/-- Nothing but blanks may follow a value. -/
def finish : Reader Unit := do
  match ← token? with
  | none => pure ()
  | some _ => fail .malformed

end Reader

/-- How many arrays and objects may be open at once. -/
def maxDepth : Nat := 127

/-- The value a whole text stands for. -/
def parse (text : String) : Except Fault Json :=
  (do let v ← Reader.value maxDepth; Reader.finish; pure v : Reader Json).run' text.toList

end ApiSurface.Json
