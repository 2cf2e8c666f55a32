import TypedStream.Output.Sink
import TypedStream.Varint

/-!
# Buffered output streams

Writes are gathered in a buffer and handed to the sink when the next one does not fit. A write at
least as large as the buffer goes to the sink directly, after what is gathered. If the sink fails
while it is handed the buffer, what it took has left the buffer and the new data is not added.
-/

namespace TypedStream

structure OutputStream where
  sink : Sink
  capacity : Nat
  pending : ByteLog := .empty
  pos : Nat := 0

namespace OutputStream

/-- A stream over a sink, positions counted from `offset`. The buffer holds a varint at least. -/
def «open» (sink : Sink) (bufferSize : Nat) (offset : Nat) : OutputStream :=
  { sink, capacity := max bufferSize maxVarintBytes, pos := offset }

def flush : EStateM Error OutputStream Unit := fun s =>
  match s.sink.store s.pending.toList with
  | (sink, []) => .ok () { s with sink, pending := .empty }
  | (sink, refused) => .error (.io .other) { s with sink, pending := .ofList refused }

/-- Puts data behind what is pending, by way of the buffer or past it. -/
def enqueue (data : Bytes) : EStateM Error OutputStream Unit := fun s =>
  if data.length < s.capacity then .ok () { s with pending := s.pending.append data }
  else
    match s.sink.store data with
    | (sink, []) => .ok () { s with sink }
    | (sink, _) => .error (.io .other) { s with sink }

/-- One write. The position moves only if it succeeds. -/
def put (data : Bytes) : EStateM Error OutputStream Unit := do
  let s ← get
  if s.capacity - s.pending.size < data.length then flush
  enqueue data
  modify fun s => { s with pos := s.pos + data.length }

def putAll : List Bytes → EStateM Error OutputStream Unit
  | [] => pure ()
  | data :: rest => do
    put data
    putAll rest

/-- The sink after the stream is given up: it is handed what is pending, and takes what it can. -/
def abandon (s : OutputStream) : Sink := (s.sink.store s.pending.toList).1

def close (s : OutputStream) : Except Error Unit × Sink :=
  match flush s with
  | .ok () s => (.ok (), s.sink)
  | .error error s => (.error error, s.abandon)

end OutputStream

end TypedStream
