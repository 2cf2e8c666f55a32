import TypedStream.Layout
import TypedStream.Varint
import TypedStream.Assoc

/-!
# Codecs

A codec pairs the encoder of a type with its decoder, for single values and for runs of values
laid end to end without a count. An encoder yields the successive writes it makes; the encoding is
their concatenation. The combinators below build the codec of a compound type from those of its
parts.
-/

namespace TypedStream

structure Codec (α : Type) where
  writes : α → List Bytes
  runWrites : List α → List Bytes
  read : Decoder α
  readRun : Nat → Decoder (List α)

namespace Codec

def encode (codec : Codec α) (value : α) : Bytes := (codec.writes value).flatten

def decode (codec : Codec α) (bytes : Bytes) : Except Error α := codec.read.runAll bytes

def single (writes : α → List Bytes) (read : Decoder α) : Codec α where
  writes := writes
  runWrites values := values.flatMap writes
  read := read
  readRun := read.times

/-- A type of fixed layout: a run is one block, written at once and read by chunks. -/
def bulk (layout : Layout α) (codec : Codec α) : Codec α where
  writes := codec.writes
  runWrites values := [layout.block values]
  read := codec.read
  readRun := layout.run

def xmap (f : α → β) (g : β → α) (codec : Codec α) : Codec β where
  writes v := codec.writes (g v)
  runWrites vs := codec.runWrites (vs.map g)
  read := f <$> codec.read
  readRun count := List.map f <$> codec.readRun count

-- ---------------------------------------------------------------------------
-- Numbers, text and the unit
-- ---------------------------------------------------------------------------

def bool : Codec Bool :=
  single (fun b => [[if b then 1 else 0]]) do
    match (← Decoder.byte).toNat with
    | 0 => return false
    | 1 => return true
    | other => Decoder.malformed (.invalidBoolean other)

def varint : Codec Nat := single (fun n => [TypedStream.varint n]) Decoder.varint

def intSingle (kind : IntKind) : Codec Int :=
  match kind.form with
  | .byte =>
    let octet := Layout.octet kind.signed
    single (fun v => [octet.image v]) (octet.ofImage <$> Decoder.bytes 1)
  | .varint => single (fun v => [TypedStream.varint v.toNat]) do
      let n ← Decoder.varint
      if kind.Holds n then return (n : Int) else Decoder.malformed (.outOfRange n kind)
  | .zigzag => single (fun v => [TypedStream.varint (zigzag v)]) do
      let v ← Decoder.zigzag
      if kind.Holds v then return v else Decoder.malformed (.outOfRange v kind)

/-- An integer of the given kind. The 8-bit kinds have a fixed layout. -/
def int (kind : IntKind) : Codec Int :=
  match kind.form with
  | .byte => bulk (Layout.octet kind.signed) (intSingle kind)
  | _ => intSingle kind

def word (width : Nat) : Codec Nat :=
  bulk (Layout.word width) (single (fun n => [littleEndian width n]) (Decoder.fixed width))

def readText (length : Nat) : Decoder String := do
  match ofUtf8? (← Layout.byte.run length) with
  | some text => return text
  | none => Decoder.malformed .stringNotUtf8

def string : Codec String :=
  single (fun text => [TypedStream.varint (utf8 text).length, utf8 text]) do
    readText (← Decoder.varint)

def unit : Codec Unit := single (fun _ => []) (pure ())

-- ---------------------------------------------------------------------------
-- Options, wrappers, lists and maps
-- ---------------------------------------------------------------------------

def option (codec : Codec α) : Codec (Option α) :=
  single
    (fun
      | none => [[0]]
      | some v => [1] :: codec.writes v) do
    match (← Decoder.byte).toNat with
    | 0 => return none
    | 1 => return some (← codec.read)
    | other => Decoder.malformed (.invalidOptionFlag other)

/-- The same encoding, but runs go value by value whatever the type does. -/
def wrapped (codec : Codec α) : Codec α := single codec.writes codec.read

def list (codec : Codec α) : Codec (List α) :=
  single (fun vs => TypedStream.varint vs.length :: codec.runWrites vs) do
    codec.readRun (← Decoder.varint)

/-- The first `count` groups of `n` values, after those already collected (newest first). -/
def groups (n : Nat) : (count : Nat) → List α → List (List α) → List (List α)
  | 0, _, found => found.reverse
  | count + 1, values, found => groups n count (values.drop n) (values.take n :: found)

/-- `n` values without a count. Runs of such arrays are runs of their values. -/
def array (n : Nat) (codec : Codec α) : Codec (List α) where
  writes := codec.runWrites
  runWrites arrays := codec.runWrites arrays.flatten
  read := codec.readRun n
  readRun count :=
    if count * n < sizeLimit then (groups n count · []) <$> codec.readRun (count * n)
    else Decoder.malformed .arrayCountOverflow

def entry (key : Codec κ) (value : Codec α) : Codec (κ × α) :=
  single (fun e => key.writes e.1 ++ value.writes e.2) do
    let k ← key.read
    let v ← value.read
    return (k, v)

/-- The count of entries, then each key with its value. Entries are read in any order. -/
def assoc [Ord κ] (key : Codec κ) (value : Codec α) : Codec (List (κ × α)) :=
  single (fun es => TypedStream.varint es.length :: es.flatMap (entry key value).writes) do
    Assoc.ofList <$> (entry key value).read.times (← Decoder.varint)

/-- The same encoding. The map that has been read lists its entries in an order of its own. -/
def hashed [Ord κ] (order : Assoc.HashOrder κ α) (key : Codec κ) (value : Codec α) :
    Codec (List (κ × α)) :=
  single (assoc key value).writes (order.arrange <$> (assoc key value).read)

-- ---------------------------------------------------------------------------
-- Records, unions and self-reference
-- ---------------------------------------------------------------------------

def nil : Codec (List α) := single (fun _ => []) (pure [])

def cons (head : Codec α) (tail : Codec (List α)) : Codec (List α) :=
  single
    (fun
      | [] => []
      | v :: vs => head.writes v ++ tail.writes vs) do
    let v ← head.read
    let vs ← tail.read
    return v :: vs

def readIndex (alternatives : Nat) : Decoder Nat := do
  let index ← Decoder.varint
  if index < alternatives then return index
  else Decoder.malformed (.unionIndex index alternatives)

def union (type : String) (alternatives : List (Codec α)) : Codec (Nat × α) :=
  single
    (fun (index, payload) =>
      TypedStream.varint index :: (alternatives[index]?.map (·.writes payload)).getD []) do
    let index ← readIndex alternatives.length
    match alternatives[index]? with
    | some codec => return (index, ← codec.read)
    | none => Decoder.malformed (.unknownAlternative type index)

/-- One of finitely many named integers, given by its place in the list. Each integer stands for
what a cast to the kind leaves of it, and the first place with a number is the one that is read. -/
def enum (type : String) (kind : IntKind) (values : List Int) : Codec Nat :=
  single (fun place => (int kind).writes (kind.wrap (values[place]?.getD 0))) do
    let v ← (int kind).read
    match values.findIdx? (kind.wrap · == v) with
    | some place => return place
    | none => Decoder.malformed (.unknownEnumValue type v)

/-- Stands where a value would nest deeper than any value can. -/
def unreachable : Codec α := single (fun _ => []) (Decoder.fail .endOfStream)

/-- The codec of a type that refers to itself at most `depth` times on any path. -/
def unrolled (body : (Unit → Codec α) → Codec α) : (depth : Nat) → Codec α
  | 0 => unreachable
  | depth + 1 => body fun _ => unrolled body depth

/-- The codec of a self-referring type. Each level takes up memory, so `sizeLimit` bounds the
nesting of every value. -/
def fix (body : (Unit → Codec α) → Codec α) : Codec α := unrolled body sizeLimit

def delayed (codec : Unit → Codec α) : Codec α where
  writes v := (codec ()).writes v
  runWrites vs := (codec ()).runWrites vs
  read := .need 0 fun _ => (codec ()).read
  readRun count := .need 0 fun _ => (codec ()).readRun count

end Codec

end TypedStream
