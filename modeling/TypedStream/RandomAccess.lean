import TypedStream.Index.Section
import TypedStream.Input.Source
import TypedStream.Reader

/-!
# Random access

An indexed reader is a reader with the index of its stream. It reads like any other, and it can
jump to a step or to an item; it then goes on as if everything before had been read. Closing it
checks nothing, since random access rarely visits every step.
-/

namespace TypedStream

structure IndexedReader (σ : Type) where
  reader : Reader σ
  index : StreamIndex

namespace IndexedReader

variable {σ : Type} [SeekableInput σ]

/-- Opens a stream and loads its index. Positions are those of the input. -/
def «open» (protocol : Protocol) (input : σ) : Except Error (IndexedReader σ) :=
  match Reader.open protocol input with
  | .error error => .error error
  | .ok reader =>
    match Reader.onInput StreamIndex.load reader with
    | .error error _ => .error error
    | .ok index reader => .ok { reader, index }

def offsetOf (source : Source) : Except Error Nat :=
  match source.position with
  | .ok offset => .ok offset
  | .error fault => .error (.index (.noPosition fault))

def onReader (act : EStateM Error (Reader σ) α) : EStateM Error (IndexedReader σ) α := fun r =>
  match act r.reader with
  | .ok value reader => .ok value { r with reader }
  | .error error reader => .error error { r with reader }

def stepName (r : IndexedReader σ) (step : Nat) : Except Error String :=
  let protocol := r.reader.order.protocol
  match protocol.step? step with
  | some found => .ok found.name
  | none => .error (.protocol (.noStep protocol.name step))

def streamName (r : IndexedReader σ) (step : Nat) : Except Error String :=
  (·.name) <$> r.reader.order.protocol.stepOfKind step .stream

def count (r : IndexedReader σ) (step : Nat) : Except Error Nat :=
  r.index.count <$> r.streamName step

/-- Moves the input to an offset and then stands at a step, with `remaining` items of a block to
come. If the input does not move, neither does the reader. -/
def jump (offset step remaining : Nat) : EStateM Error (IndexedReader σ) Unit := do
  let _ ← onReader (Reader.onInput (SeekableInput.seek (signedOffset offset)))
  modify fun r => { r with
    reader := { r.reader with order := r.reader.order.jump step, remaining } }

def seekStep (step : Nat) : EStateM Error (IndexedReader σ) Unit := fun r =>
  match r.stepName step with
  | .error error => .error error r
  | .ok name =>
    match r.index.stepOffset name with
    | .error error => .error error r
    | .ok offset => jump offset step 0 r

/-- Jumps to an item of a stream step; false, without moving, if there is no such item. -/
def seekItem (step item : Nat) : EStateM Error (IndexedReader σ) Bool := fun r =>
  match r.streamName step with
  | .error error => .error error r
  | .ok name =>
    if r.index.count name ≤ item then .ok false r
    else
      match r.index.find name item with
      | .error error => .error error r
      | .ok found =>
        match jump found.offset step found.remaining r with
        | .ok () r => .ok true r
        | .error error r => .error error r

end IndexedReader

end TypedStream
