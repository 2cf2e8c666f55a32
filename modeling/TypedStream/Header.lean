import TypedStream.Codec.Basic

/-!
# Stream headers

A stream opens with five magic bytes, a format version of four bytes, and the schema text with its
length in front. The length is bounded, since a damaged one must not be believed.
-/

namespace TypedStream

structure Header where
  version : Nat
  schema : String
  deriving DecidableEq, Repr

namespace Header

/-- "yardl". -/
def magic : Bytes := [0x79, 0x61, 0x72, 0x64, 0x6c]

def formatVersion : Nat := 1

def maxSchemaBytes : Nat := 16 * 1024 * 1024

def ofSchema (schema : String) : Header := ⟨formatVersion, schema⟩

/-- Bytes that the header takes up when it is written. -/
def encodedLength (header : Header) : Nat :=
  let length := (utf8 header.schema).length
  magic.length + 4 + varintLength length + length

def writes (schema : String) : List Bytes :=
  [magic, littleEndian 4 formatVersion, varint (utf8 schema).length, utf8 schema]

def read : Decoder Header := do
  let found ← Decoder.bytes magic.length
  if found ≠ magic then Decoder.malformed .notThisFormat
  let version ← Decoder.fixed 4
  if version ≠ formatVersion then Decoder.malformed (.formatVersion version formatVersion)
  let length ← Decoder.varint
  if maxSchemaBytes < length then Decoder.malformed (.schemaTooLong length)
  match ofUtf8? (← Decoder.bytes length) with
  | some schema => return ⟨version, schema⟩
  | none => Decoder.malformed .schemaNotUtf8

end Header

end TypedStream
