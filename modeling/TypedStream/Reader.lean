import TypedStream.Header
import TypedStream.Input.Basic
import TypedStream.Order.Reading

/-!
# Readers

A reader checks the header, finds out which version of the schema the stream has, and then decodes
the steps in protocol order. Items of a stream come block by block; callers do not see the blocks.

A stream step ends at a block of no items. An input that ends where the next block would start
ends the stream as well; an input that ends anywhere else is truncated.
-/

namespace TypedStream

inductive StepDecoder (α : Type) where
  | current
  /-- As an older schema wrote them, with a conversion. -/
  | legacy (read : Decoder α)

namespace StepDecoder

def one (decoder : StepDecoder α) (codec : Codec α) : Decoder α :=
  match decoder with
  | current => codec.read
  | legacy read => read

def many (decoder : StepDecoder α) (codec : Codec α) (count : Nat) : Decoder (List α) :=
  match decoder with
  | current => codec.readRun count
  | legacy read => read.times count

end StepDecoder

structure Reader (σ : Type) where
  input : σ
  order : ReadOrder
  version : Nat
  /-- Items left in the stream block being read. -/
  remaining : Nat := 0

namespace Reader

variable {σ : Type} [ByteInput σ]

def pos (r : Reader σ) : Nat := ByteInput.pos r.input

def onInput (act : EStateM Error σ α) : EStateM Error (Reader σ) α := fun r =>
  match act r.input with
  | .ok value input => .ok value { r with input }
  | .error error input => .error error { r with input }

def «open» (protocol : Protocol) (input : σ) : Except Error (Reader σ) :=
  match Header.read.exec input with
  | .error error _ => .error error
  | .ok header input =>
    match protocol.versionOf header.schema with
    | .error error => .error error
    | .ok version => .ok { input, order := { protocol }, version }

def require (check : Reader σ → Except Error Unit) : EStateM Error (Reader σ) Unit := fun r =>
  match check r with
  | .ok () => .ok () r
  | .error error => .error error r

def authorize (step : Nat) (kind : StepKind) : EStateM Error (Reader σ) Unit :=
  require fun r => (fun _ => ()) <$> r.order.protocol.stepOfKind step kind

def beginScalar (step : Nat) : EStateM Error (Reader σ) Unit := fun r =>
  match r.order.beginScalar step with
  | .ok order => .ok () { r with order }
  | .error error => .error error r

def beginStream (step : Nat) : EStateM Error (Reader σ) StreamRead := fun r =>
  match r.order.beginStream step with
  | .ok (turn, order) => .ok turn { r with order }
  | .error error => .error error r

def readStep (codec : Codec α) (decoder : StepDecoder α) (step : Nat) :
    EStateM Error (Reader σ) α := do
  authorize step .scalar
  beginScalar step
  let value ← onInput (decoder.one codec).exec
  modify fun r => { r with order := r.order.finish step }
  return value

def nextBlock : EStateM Error (Reader σ) Unit := fun r =>
  match tryVarint r.input with
  | .ok count input => .ok () { r with input, remaining := count.getD 0 }
  | .error error input => .error error { r with input }

def ensureBlock : EStateM Error (Reader σ) Unit := fun r =>
  if r.remaining = 0 then nextBlock r else .ok () r

def takeItem (codec : Codec α) (decoder : StepDecoder α) (step : Nat) :
    EStateM Error (Reader σ) (Option α) := fun r =>
  if r.remaining = 0 then .ok none { r with order := r.order.finish step }
  else
    match onInput (decoder.one codec).exec r with
    | .ok item r => .ok (some item) { r with remaining := r.remaining - 1 }
    | .error error r => .error error r

def readItem (codec : Codec α) (decoder : StepDecoder α) (step : Nat) :
    EStateM Error (Reader σ) (Option α) := do
  authorize step .stream
  match ← beginStream step with
  | .finished => return none
  | .proceed => do
    ensureBlock
    takeItem codec decoder step

/-- Up to `room` items, after those already found, from as many blocks as it takes. The count of
the block after the last item is read at once. Returns the items also when the next ones fail. -/
def fillItems (codec : Codec α) (decoder : StepDecoder α) (room : Nat) (found : List α)
    (r : Reader σ) : EStateM.Result Error (Reader σ) Unit × List α :=
  if _h : room = 0 ∨ r.remaining = 0 then (.ok () r, found)
  else
    let now := min r.remaining room
    match onInput (decoder.many codec now).exec r with
    | .error error r => (.error error r, found)
    | .ok items r =>
      match ensureBlock { r with remaining := r.remaining - now } with
      | .error error r => (.error error r, found ++ items)
      | .ok () r => fillItems codec decoder (room - now) (found ++ items) r
termination_by room
decreasing_by omega

/-- Ends a batch; says whether there were items. A stream without a further block is drained. -/
def endBatch (step : Nat) (items : List α) (r : Reader σ) : Bool × Reader σ :=
  if r.remaining = 0 then (!items.isEmpty, { r with order := r.order.drain step }) else (true, r)

/-- Up to `max` further items of a stream step, with whether there were any. `seed` is what the
caller's list holds before; it is still there if the call is refused before the list is cleared.
Returns the list also when the call fails. -/
def readItems (codec : Codec α) (decoder : StepDecoder α) (step max : Nat) (seed : List α)
    (r : Reader σ) : EStateM.Result Error (Reader σ) Bool × List α :=
  if max = 0 then (.error .zeroCapacity r, seed)
  else
    match authorize step .stream r with
    | .error error r => (.error error r, seed)
    | .ok () r =>
      match beginStream step r with
      | .error error r => (.error error r, [])
      | .ok .finished r => (.ok false r, [])
      | .ok .proceed r =>
        match ensureBlock r with
        | .error error r => (.error error r, [])
        | .ok () r =>
          match fillItems codec decoder max [] r with
          | (.error error r, items) => (.error error r, items)
          | (.ok () r, items) =>
            let (more, r) := endBatch step items r
            (.ok more r, items)

def readBatch (codec : Codec α) (decoder : StepDecoder α) (step : Nat) (max : Nat) :
    EStateM Error (Reader σ) (Option (List α)) := fun r =>
  match readItems codec decoder step max [] r with
  | (.ok true r, items) => .ok (some items) r
  | (.ok false r, _) => .ok none r
  | (.error error r, _) => .error error r

/-- Checks that every step has been read and no byte is left. -/
def close : EStateM Error (Reader σ) Unit := do
  require (·.order.checkClose)
  onInput verifyFinished

end Reader

end TypedStream
