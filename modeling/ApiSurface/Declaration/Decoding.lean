import ApiSurface.Declaration.Document

/-! Reading a stored document. A document is read from front to back, so when it is both wrong as
JSON and wrong in shape, the fault that shows first is the one reported. -/
namespace ApiSurface.Structure

open Json Reader

/-- What reading one declaration from the front of a text comes to. -/
inductive Outcome
  /-- The text is wrong before the shape is. -/
  | broken
  /-- The shape is wrong first. -/
  | misshapen
  | sound
  deriving DecidableEq

/-- The tag of a record. It is judged as soon as it starts: only a string can be a tag, and any
other value, complete or not, makes the shape wrong unless it is a scalar with a broken text. -/
def tagOutcome : Reader Outcome := do
  match ← token? with
  | some '"' =>
    skip
    let tag ← stringBody
    pure (if (Kind.ofName? tag).isSome then .sound else .misshapen)
  | some '[' | some '\x7b' => pure .misshapen
  | _ => let _ ← Reader.value 0; pure .misshapen

/-- The fields of a record up to its closing brace, with what is known of the tag. -/
def fieldsOutcome (room : Nat) : Nat → Bool → Bool → Reader Outcome
  | 0, _, _ => fail .truncated
  | fuel + 1, first, tagged => do
    if ← hasField first then
      let name ← stringBody
      if name = "type" then
        if tagged then pure .misshapen
        else
          colon
          match ← tagOutcome with
          | .sound => fieldsOutcome room fuel false true
          | outcome => pure outcome
      else
        colon
        let _ ← Reader.value room
        fieldsOutcome room fuel false tagged
    else if tagged then do skip; pure .sound
    else pure .misshapen

/-- The items of a record given by position. -/
def itemsOutcome (room : Nat) : Reader Outcome := do
  if ← hasItem true then
    match ← tagOutcome with
    | .sound =>
      let fuel := (← get).length + 1
      let _ ← Reader.items (Reader.value room) fuel false
      pure .sound
    | outcome => pure outcome
  else pure .misshapen

/-- One declaration, read as far as its outcome is not known. -/
def declarationOutcome (room : Nat) : Reader Outcome := do
  let start ← get
  match ← token? with
  | some '\x7b' =>
    skip
    match ← fieldsOutcome (room - 1) (start.length + 1) true false with
    | .sound =>
      let rest ← get
      let (v, _) ← (Reader.value room).run start
      set rest
      pure (if (Declaration.ofJson? v).isSome then .sound else .misshapen)
    | outcome => pure outcome
  | some '[' =>
    skip
    match ← itemsOutcome (room - 1) with
    | .sound =>
      let rest ← get
      let (v, _) ← (Reader.value room).run start
      set rest
      pure (if (Declaration.ofJson? v).isSome then .sound else .misshapen)
    | outcome => pure outcome
  | _ => let _ ← Reader.value room; pure .misshapen

/-- The declarations of a document up to the first one that settles the outcome. -/
def documentOutcome : Nat → Bool → Reader Outcome
  | 0, _ => fail .truncated
  | fuel + 1, first => do
    if ← hasItem first then
      match ← declarationOutcome (maxDepth - 1) with
      | .sound => documentOutcome fuel false
      | outcome => pure outcome
    else pure .broken

/-- Whether the shape of a document goes wrong before its text does. -/
def misshapenFirst (text : String) : Bool :=
  let read : Reader Outcome := do
    match ← token? with
    | some '[' => skip; documentOutcome (text.length + 1) true
    | some '\x7b' => pure .misshapen
    | _ => let _ ← Reader.value 0; pure .misshapen
  match read.run' text.toList with
  | .ok .misshapen => true
  | _ => false

/-- The structure a stored document holds. -/
def decode (text : String) : Except DocumentFault Structure :=
  match Json.parse text with
  | .ok v =>
    match ofJson? v with
    | some s => .ok s
    | none => .error .shape
  | .error fault => .error (if misshapenFirst text then .shape else .text fault)

/-- The stored form of a structure as it is written to a file or to the terminal. -/
def encode (s : Structure) : String := (toJson s).pretty

end ApiSurface.Structure
