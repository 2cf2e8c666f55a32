import TypedStream.Header
import TypedStream.Index.Section
import TypedStream.Input.Stream
import TypedStream.Protocol

/-!
# Reports on files

What a file holds, without decoding its steps: size, format version, schema, where the payload
starts and, if there is an index, where each step lies and how its items are grouped. A file
without an index is a valid file; a device that fails is an error.
-/

namespace TypedStream

structure StepReport where
  name : String
  offset : Nat
  /-- Items and blocks, of a stream with at least one item. -/
  stream : Option (Nat × Nat)
  deriving DecidableEq, Repr

structure IndexReport where
  offset : Nat
  steps : List StepReport
  deriving DecidableEq, Repr

structure Report where
  fileSize : Nat
  formatVersion : Nat
  schema : String
  payloadOffset : Nat
  index : Option IndexReport
  deriving DecidableEq, Repr

namespace Report

def payloadSize (report : Report) : Nat :=
  ((report.index.map (·.offset)).getD report.fileSize) - report.payloadOffset

def versionIn (report : Report) (protocol : Protocol) : Except Error Nat :=
  protocol.versionOf report.schema

def stepReport (index : StreamIndex) (name : String) (offset : Nat) : StepReport :=
  let items := index.count name
  { name, offset, stream := if 0 < items then some (items, index.blockCount name) else none }

/-- The steps of an index by offset, those of one offset by name. -/
def stepReports (index : StreamIndex) : List StepReport :=
  (index.steps.map fun e => stepReport index e.1 e.2).mergeSort fun a b => a.offset ≤ b.offset

/-- The index of an input, if it has one. -/
def findIndex [SeekableInput σ] : EStateM Error σ (Option StreamIndex) := fun s =>
  match StreamIndex.load s with
  | .ok index s => .ok (some index) s
  | .error (.index _) s => .ok none s
  | .error error s => .error error s

def indexReport [SeekableInput σ] (index : StreamIndex) : EStateM Error σ IndexReport := do
  let _ ← SeekableInput.seek (-StreamIndex.pointerBytes)
  let offset ← (Decoder.fixed StreamIndex.pointerBytes).exec
  return { offset, steps := stepReports index }

def ofInput [SeekableInput σ] (fileSize : Nat) : EStateM Error σ Report := do
  let header ← Header.read.exec
  let payloadOffset := ByteInput.pos (← get)
  match ← findIndex with
  | none =>
    return { fileSize, formatVersion := header.version, schema := header.schema,
             payloadOffset, index := none }
  | some index =>
    let found ← indexReport index
    return { fileSize, formatVersion := header.version, schema := header.schema,
             payloadOffset, index := some found }

def ofSource (source : Source) : Except Error Report := do
  let start ← source.position.mapError Error.ofFault
  let (size, source) := source.seekEnd 0
  size.mapError Error.ofFault
  let fileSize ← source.position.mapError Error.ofFault
  let source ← (source.seekTo start).mapError Error.ofFault
  match ofInput fileSize (InputStream.open source defaultBufferSize start) with
  | .ok report _ => return report
  | .error error _ => throw error

-- ---------------------------------------------------------------------------
-- Text
-- ---------------------------------------------------------------------------

def stepLine (connector : String) (step : StepReport) : String :=
  let stream :=
    match step.stream with
    | some (items, blocks) => s!" | Items: {items} in {blocks} blocks"
    | none => ""
  s!"{connector}{step.name} @ {step.offset}{stream}\n"

def stepLines : List StepReport → String
  | [] => ""
  | [step] => stepLine "└── " step
  | step :: rest => stepLine "├── " step ++ stepLines rest

def text (report : Report) : String :=
  "=== STEPCODE INSPECTOR REPORT ===\n"
    ++ s!"File Size:      {report.fileSize}\n"
    ++ s!"Format Version: {report.formatVersion}\n"
    ++ s!"Payload:        {report.payloadSize} bytes at {report.payloadOffset}\n"
    ++ s!"Schema:         {report.schema}\n"
    ++ match report.index with
      | none => "\n[NO INDEX]\n"
      | some index => s!"\n[INDEX @ {index.offset}]\n" ++ stepLines index.steps

end Report

end TypedStream
