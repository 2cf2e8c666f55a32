import TypedStream.Header
import TypedStream.Index.Section
import TypedStream.Order.Writing
import TypedStream.Output.Stream

/-!
# Writers

A writer puts down the header and then each step in protocol order. Every call that writes items
of a stream makes one block, the count and the items; a block of no items ends the stream. A call
that is out of order or of the wrong kind is refused before anything is written.

A writer may keep an index of what it writes; it is stored behind the payload when the writer is
closed. Keeping an index changes no byte of the payload.
-/

namespace TypedStream

structure Writer where
  out : OutputStream
  order : WriteOrder
  index : Option StreamIndex := none

namespace Writer

def pos (w : Writer) : Nat := w.out.pos

def onStream (act : EStateM Error OutputStream α) : EStateM Error Writer α := fun w =>
  match act w.out with
  | .ok value out => .ok value { w with out }
  | .error error out => .error error { w with out }

/-- Writes the header on a stream. If the sink fails, what is pending is given up. -/
def start (protocol : Protocol) (out : OutputStream) (index : Option StreamIndex) :
    Except (Error × Sink) Writer :=
  match OutputStream.putAll (Header.writes protocol.schema) out with
  | .ok () out => .ok { out, order := { protocol }, index }
  | .error error out => .error (error, out.abandon)

/-- A writer without an index. Positions count from its first byte. -/
def «open» (protocol : Protocol) (sink : Sink) (bufferSize : Nat) : Except (Error × Sink) Writer :=
  start protocol (OutputStream.open sink bufferSize 0) none

/-- A writer with an index. Positions are those of the sink, which has to tell its own. -/
def openIndexed (protocol : Protocol) (sink : Sink) (bufferSize : Nat) :
    Except (Error × Sink) Writer :=
  match sink.position with
  | .ok offset => start protocol (OutputStream.open sink bufferSize offset) (some {})
  | .error fault => .error (.index (.cannotBuild fault), sink)

-- ---------------------------------------------------------------------------
-- Steps
-- ---------------------------------------------------------------------------

def authorize (check : WriteOrder → Except Error Unit) (step : Nat) (kind : StepKind) :
    EStateM Error Writer Step := fun w =>
  match check w.order with
  | .error error => .error error w
  | .ok () =>
    match w.order.protocol.stepOfKind step kind with
    | .ok found => .ok found w
    | .error error => .error error w

def mark (name : String) : EStateM Error Writer Unit :=
  modify fun w => { w with index := w.index.map (·.markStep name w.pos) }

def finish (step : Nat) : EStateM Error Writer Unit :=
  modify fun w => { w with order := w.order.finish step }

def writeStep (codec : Codec α) (step : Nat) (value : α) : EStateM Error Writer Unit := do
  let found ← authorize (·.checkWrite step) step .scalar
  mark found.name
  onStream (OutputStream.putAll (codec.writes value))
  finish step

/-- Items one by one; returns the offset of each, after those already known (newest first). -/
def putItems (codec : Codec α) : List α → List Nat → EStateM Error OutputStream (List Nat)
  | [], offsets => pure offsets.reverse
  | item :: items, offsets => do
    let offset := (← get).pos
    OutputStream.putAll (codec.writes item)
    putItems codec items (offset :: offsets)

/-- A block's items: one by one if their offsets are to be kept, as a run if not. -/
def putBlock (codec : Codec α) (name : String) (items : List α) : EStateM Error Writer Unit := do
  match (← get).index with
  | none => onStream (OutputStream.putAll (codec.runWrites items))
  | some _ =>
    let offsets ← onStream (putItems codec items [])
    modify fun w => { w with index := w.index.map (·.addBlock name offsets) }

/-- Items of a stream step, as one block. No items make no block. -/
def writeItems (codec : Codec α) (step : Nat) (items : List α) : EStateM Error Writer Unit := do
  let found ← authorize (·.checkWrite step) step .stream
  if items.isEmpty then pure ()
  else
    mark found.name
    onStream (OutputStream.put (varint items.length))
    putBlock codec found.name items

def writeItem (codec : Codec α) (step : Nat) (item : α) : EStateM Error Writer Unit :=
  writeItems codec step [item]

def endStream (step : Nat) : EStateM Error Writer Unit := do
  let found ← authorize (·.checkEnd step) step .stream
  mark found.name
  onStream (OutputStream.put (varint 0))
  finish step

-- ---------------------------------------------------------------------------
-- The end
-- ---------------------------------------------------------------------------

def flush : EStateM Error Writer Unit := onStream OutputStream.flush

def putIndex : EStateM Error Writer Unit := do
  match (← get).index with
  | none => pure ()
  | some index => onStream fun out => OutputStream.putAll (index.writes out.pos) out

def settle : EStateM Error Writer Unit := do
  match (← get).order.checkClose with
  | .error error => throw error
  | .ok () => do
    putIndex
    flush

def abandon (w : Writer) : Sink := w.out.abandon

def release (w : Writer) : Except Error Unit × Sink := w.out.close

/-- Checks that every step has been written, stores the index and releases the sink. The sink is
handed what is pending also when closing fails. -/
def close (w : Writer) : Except Error Unit × Sink :=
  match settle w with
  | .ok () w => w.release
  | .error error w => (.error error, w.abandon)

end Writer

end TypedStream
