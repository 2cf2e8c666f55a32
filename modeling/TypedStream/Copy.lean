import TypedStream.Reader.Progress
import TypedStream.Writer

/-!
# Copying

A protocol is copied step by step from a reader to a writer. Streams are regrouped on the way:
with a buffer of more than one item every block but the last is a full buffer, otherwise every
block is one item. The buffer is reserved in advance, which ends the program where it is too large.
-/

namespace TypedStream

structure Copier (σ : Type) where
  reader : Reader σ
  writer : Writer

namespace Copier

variable {σ : Type} [ByteInput σ]

def copyStep (codec : Codec α) (decoder : StepDecoder α) (step : Nat) :
    EStateM Error (Copier σ) Unit := fun c =>
  match c.reader.readStep codec decoder step with
  | .error error reader => .error error { c with reader }
  | .ok value reader =>
    match c.writer.writeStep codec step value with
    | .error error writer => .error error { reader, writer }
    | .ok () writer => .ok () { reader, writer }

def copyItems (codec : Codec α) (decoder : StepDecoder α) (step copied : Nat)
    (reader : Reader σ) (writer : Writer) : EStateM.Result Error (Copier σ) Nat :=
  match _h : reader.readItem codec decoder step with
  | .error error reader => .error error { reader, writer }
  | .ok none reader => .ok copied { reader, writer }
  | .ok (some item) next =>
    match writer.writeItem codec step item with
    | .error error writer => .error error { reader := next, writer }
    | .ok () writer => copyItems codec decoder step (copied + 1) next writer
termination_by reader.toRead
decreasing_by exact Reader.behind_of_readItem _h

/-- Copies items in batches of up to `buffer`; returns how many, `copied` of them before. -/
def copyBatches (codec : Codec α) (decoder : StepDecoder α) (step buffer copied : Nat)
    (reader : Reader σ) (writer : Writer) : EStateM.Result Error (Copier σ) Nat :=
  match _h : reader.readBatch codec decoder step buffer with
  | .error error reader => .error error { reader, writer }
  | .ok none reader => .ok copied { reader, writer }
  | .ok (some items) next =>
    match writer.writeItems codec step items with
    | .error error writer => .error error { reader := next, writer }
    | .ok () writer => copyBatches codec decoder step buffer (copied + items.length) next writer
termination_by reader.toRead
decreasing_by exact Reader.behind_of_readBatch _h

def copyStream (codec : Codec α) (decoder : StepDecoder α) (step buffer : Nat) :
    EStateM Error (Copier σ) Nat := fun c =>
  let copied :=
    if 1 < buffer then copyBatches codec decoder step buffer 0 c.reader c.writer
    else copyItems codec decoder step 0 c.reader c.writer
  match copied with
  | .error error c => .error error c
  | .ok copied c =>
    match c.writer.endStream step with
    | .error error writer => .error error { c with writer }
    | .ok () writer => .ok copied { c with writer }

/-- Why copying ends early: with an error, or because memory cannot be had, which ends the program. -/
inductive Stop where
  | error (error : Error)
  | noRoom

/-- The most bytes that can be reserved at once. -/
def memoryLimit : Nat := sizeLimit / 2 - 1

/-- There can be a buffer of so many items that take up `width` bytes of memory each. Items that are
copied one by one need none. -/
def HasRoom (width buffer : Nat) : Prop := buffer ≤ 1 ∨ buffer * width ≤ memoryLimit

instance (width buffer : Nat) : Decidable (HasRoom width buffer) :=
  inferInstanceAs (Decidable (_ ∨ _))

/-- Copies a stream with a buffer that is reserved as a whole before any item is read. -/
def copyReserved (codec : Codec α) (decoder : StepDecoder α) (step width buffer : Nat) :
    EStateM Stop (Copier σ) Nat :=
  if HasRoom width buffer then EStateM.adaptExcept .error (copyStream codec decoder step buffer)
  else throw .noRoom

end Copier

end TypedStream
