import TypedStream.Copy
import TypedStream.RandomAccess
import TypedStream.Retype
import TypedStream.SchemaDoc
import TypedStream.Ty

/-!
# The sensor log protocol

A log of one measuring device: a header, an identifier, a stream of samples and a footer. The
protocol has had two versions. In version 0 the gain is an 8-bit integer, the header has no note,
channels are numbers, and a reading is a label, a scalar, counts or an obsolete byte. In version 1,
the current one, the gain has 32 bits, there is an optional note, channels are texts, and a reading
may be missing. Data of version 0 is converted as it is read.
-/

namespace TypedStream.SensorLog

-- ---------------------------------------------------------------------------
-- The protocol
-- ---------------------------------------------------------------------------

section

open SchemaDoc (typed record optional stream vector array text)

/-- A schema of the protocol: what the versions share, around what they do not. -/
def schemaDoc (headerFields readings : List SchemaDoc) (channel : String) : SchemaDoc :=
  .object
    [("protocol", .object
      [("name", text "SensorLog"),
       ("sequence", .list
        [typed "header" (text "SensorLog.Header"), typed "id" (text "int64"),
         typed "samples" (stream "SensorLog.Sample"), typed "footer" (optional "string")])]),
     ("types", .list
      [record "Header" headerFields, typed "Reading" (.list readings),
       record "Sample"
        [typed "timestamp" (text "uint64"), typed "reading" (text "SensorLog.Reading"),
         typed "channel" (text channel)]])]

def schemaV0 : String :=
  (schemaDoc
    [typed "subject" (text "string"), typed "gain" (text "int8"),
     typed "units" (text "SensorLog.Units"), typed "matrix" (array "float32" [2, 2])]
    [text "string", text "float64", vector "uint32", text "uint8"]
    "uint32").render

def schemaV1 : String :=
  (schemaDoc
    [typed "subject" (text "string"), typed "gain" (text "int32"),
     typed "units" (text "SensorLog.Units"), typed "matrix" (array "float32" [2, 2]),
     typed "note" (optional "string")]
    [.null, text "float64", vector "uint32", text "string"]
    "string").render

end

def steps : List Step :=
  [⟨"header", .scalar⟩, ⟨"id", .scalar⟩, ⟨"samples", .stream⟩, ⟨"footer", .scalar⟩]

def headerStep : Nat := 0
def idStep : Nat := 1
def samplesStep : Nat := 2
def footerStep : Nat := 3

def protocol : Protocol :=
  { name := "SensorLog", steps, schema := schemaV1, history := [schemaV0] }

def protocolV0 : Protocol := { name := "SensorLog", steps, schema := schemaV0 }

-- ---------------------------------------------------------------------------
-- Types
-- ---------------------------------------------------------------------------

def units : Ty := .enum "Units" .i16 [("Raw", -1), ("Millivolts", 1), ("Volts", 2)]

def matrix : Ty := .array (.array (.float .single) 2) 2

def header : Ty :=
  .record "Header" false <| .ofList
    [("subject", .string), ("gain", .int .i32), ("units", units), ("matrix", matrix),
     ("note", .option .string)]

def headerV0 : Ty :=
  .record "HeaderV0" false <| .ofList
    [("subject", .string), ("gain", .int .i8), ("units", units), ("matrix", matrix)]

def reading : Ty :=
  .union "Reading" <| .ofList
    [("Missing", []), ("Scalar", [("0", .float .double)]), ("Counts", [("0", .list (.int .u32))]),
     ("Label", [("0", .string)])]

def readingV0 : Ty :=
  .union "ReadingV0" <| .ofList
    [("Label", [("0", .string)]), ("Scalar", [("0", .float .double)]),
     ("Counts", [("0", .list (.int .u32))]), ("Obsolete", [("0", .int .u8)])]

def sample : Ty :=
  .record "Sample" false <| .ofList
    [("timestamp", .int .u64), ("reading", reading), ("channel", .string)]

def sampleV0 : Ty :=
  .record "SampleV0" false <| .ofList
    [("timestamp", .int .u64), ("reading", readingV0), ("channel", .int .u32)]

def identifier : Ty := .int .i64

def footer : Ty := .option .string

-- ---------------------------------------------------------------------------
-- Data of version 0
-- ---------------------------------------------------------------------------

def upgradeHeader : Value → Value
  | .record fields => .record (fields ++ [.absent])
  | other => other

def readHeaderV0 : Decoder Value := upgradeHeader <$> headerV0.codec.read

/-- Alternatives keep their meaning and change their place; the obsolete one is gone. -/
def readingRemap : UnionRemap := ⟨[some 3, some 1, some 2, none]⟩

def readPayload : Nat → Decoder Value
  | 1 => floatCodec .double |>.read
  | 2 => (Ty.list (.int .u32)).codec.read
  | 3 => Ty.string.codec.read
  | index => Decoder.malformed (.unknownAlternative "Reading" index)

def readReadingV0 : Decoder Value := do
  let old ← Codec.readIndex readingRemap.alternatives
  let index ← Legacy.lift (readingRemap.resolve old)
  return .variant index [← readPayload index]

def readSampleV0 : Decoder Value := do
  let timestamp ← (Ty.int .u64).codec.read
  let reading ← readReadingV0
  let channel ← Legacy.formatted .u32
  return .record [timestamp, reading, channel]

def headerDecoder : (version : Nat) → StepDecoder Value
  | 0 => .legacy readHeaderV0
  | _ => .current

def sampleDecoder : (version : Nat) → StepDecoder Value
  | 0 => .legacy readSampleV0
  | _ => .current

-- ---------------------------------------------------------------------------
-- Whole logs
-- ---------------------------------------------------------------------------

structure Log where
  header : Value
  identifier : Value
  samples : List Value
  footer : Value

/-- Lists of `size` items, the last one possibly shorter. -/
def chunks (size : Nat) (items : List α) : List (List α) :=
  if _h : size = 0 ∨ items = [] then []
  else items.take size :: chunks size (items.drop size)
termination_by items.length
decreasing_by
  have : items.length ≠ 0 := by rw [ne_eq, List.length_eq_zero_iff]; exact fun e => _h (.inr e)
  simp only [List.length_drop]
  omega

def writeBlocks : List (List Value) → EStateM Error Writer Unit
  | [] => pure ()
  | block :: blocks => do
    Writer.writeItems sample.codec samplesStep block
    writeBlocks blocks

def write (log : Log) (batch : Nat) : EStateM Error Writer Unit := do
  Writer.writeStep header.codec headerStep log.header
  Writer.writeStep identifier.codec idStep log.identifier
  writeBlocks (chunks (max 1 batch) log.samples)
  Writer.endStream samplesStep
  Writer.writeStep footer.codec footerStep log.footer

variable {σ : Type} [ByteInput σ]

def readEach (decoder : StepDecoder Value) (found : List Value) (r : Reader σ) :
    EStateM.Result Error (Reader σ) (List Value) :=
  match _h : r.readItem sample.codec decoder samplesStep with
  | .error error r => .error error r
  | .ok none r => .ok found.reverse r
  | .ok (some item) next => readEach decoder (item :: found) next
termination_by r.toRead
decreasing_by exact Reader.behind_of_readItem _h

def readBatches (decoder : StepDecoder Value) (batch : Nat) (found : List Value) (r : Reader σ) :
    EStateM.Result Error (Reader σ) (List Value) :=
  match _h : r.readBatch sample.codec decoder samplesStep batch with
  | .error error r => .error error r
  | .ok none r => .ok found.reverse r
  | .ok (some items) next => readBatches decoder batch (items.reverseAux found) next
termination_by r.toRead
decreasing_by exact Reader.behind_of_readBatch _h

def read (batch : Nat) : EStateM Error (Reader σ) Log := do
  let version := (← get).version
  let head ← Reader.readStep header.codec (headerDecoder version) headerStep
  let id ← Reader.readStep identifier.codec .current idStep
  let samples ←
    if batch ≤ 1 then readEach (sampleDecoder version) []
    else readBatches (sampleDecoder version) batch []
  let foot ← Reader.readStep footer.codec .current footerStep
  return { header := head, identifier := id, samples, footer := foot }

def copy (buffer : Nat) : EStateM Error (Copier σ) Unit := do
  let version := (← get).reader.version
  Copier.copyStep header.codec (headerDecoder version) headerStep
  Copier.copyStep identifier.codec .current idStep
  let _ ← Copier.copyStream sample.codec (sampleDecoder version) samplesStep buffer
  Copier.copyStep footer.codec .current footerStep

end TypedStream.SensorLog
