import TypedStream.Index.Basic
import TypedStream.Input.Basic

/-!
# Index sections

An index is stored behind the payload: ten magic bytes, a version of four bytes, the three tables
as maps, and eight bytes with the position of the section. The last eight bytes of a file
therefore say where its index is. Loading one leaves the input where it was.
-/

namespace TypedStream.StreamIndex

/-- "yardlindex". -/
def magic : Bytes := [0x79, 0x61, 0x72, 0x64, 0x6c, 0x69, 0x6e, 0x64, 0x65, 0x78]

def formatVersion : Nat := 1

def pointerBytes : Nat := 8

def offsetTable : Codec (List (String × Nat)) := .assoc .string .varint

def listTable : Codec (List (String × List Nat)) := .assoc .string (.list .varint)

def writes (index : StreamIndex) (start : Nat) : List Bytes :=
  [magic, littleEndian 4 formatVersion] ++ offsetTable.writes index.steps
    ++ listTable.writes index.items ++ listTable.writes index.blocks
    ++ [littleEndian pointerBytes start]

def readSection : Decoder StreamIndex := do
  let found ← Decoder.bytes magic.length
  if found ≠ magic then Decoder.fail (.index .notIndexFormat)
  let version ← Decoder.fixed 4
  if version ≠ formatVersion then Decoder.fail (.index (.indexVersion version))
  let steps ← offsetTable.read
  let items ← listTable.read
  let blocks ← listTable.read
  return { steps, items, blocks }

/-- Runs `act`, saying of damaged bytes what part of the index they are. -/
def orFault (act : EStateM Error σ α) (fault : Damage → IndexFault) :
    EStateM Error σ α := fun s =>
  match act s with
  | .ok value s => .ok value s
  | .error error s =>
    match error.damage? with
    | some damage => .error (.index (fault damage)) s
    | none => .error error s

/-- Moves to the pointer at the end. An input without room for one has no index. -/
def seekPointer [SeekableInput σ] : EStateM Error σ Nat := fun s =>
  match SeekableInput.seek (-pointerBytes) s with
  | .error (.io .invalidInput) s => .error (.index .tooShort) s
  | other => other

/-- Loads the index of an input and returns to where the input was. A device fault stays one. -/
def load [SeekableInput σ] : EStateM Error σ StreamIndex := do
  let resume := ByteInput.pos (← get)
  let trailer ← seekPointer
  let start ← orFault (Decoder.fixed pointerBytes).exec .pointerUnreadable
  if trailer ≤ start then throw (.index .notFound)
  let _ ← SeekableInput.seek (signedOffset start)
  let index ← orFault readSection.exec .unreadable
  if ByteInput.pos (← get) ≠ trailer then throw (.index .trailingBytes)
  let _ ← SeekableInput.seek (signedOffset resume)
  return index

end TypedStream.StreamIndex
