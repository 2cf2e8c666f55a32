import TypedStream.Bytes
import TypedStream.Error

/-!
# Sinks

The device that an output stream writes to. A sink may have room for a limited number of bytes;
it takes what fits of a write and fails the rest.
-/

namespace TypedStream

structure Sink where
  held : ByteLog := .empty
  /-- The most bytes the sink holds. -/
  limit : Option Nat := none
  pipe : Bool := false

namespace Sink

instance : Inhabited Sink := ⟨{}⟩

def ofBytes (bytes : Bytes) : Sink := { held := .ofList bytes }

def create (directoryExists : Bool) : Except Error Sink :=
  if directoryExists then .ok {} else .error (.io .notFound)

def bytes (sink : Sink) : Bytes := sink.held.toList

def position (sink : Sink) : Except DeviceFault Nat :=
  if sink.pipe then .error .unsupported else .ok sink.held.size

/-- Takes what fits and returns what does not. -/
def store (sink : Sink) (data : Bytes) : Sink × Bytes :=
  match sink.limit with
  | none => ({ sink with held := sink.held.append data }, [])
  | some limit =>
    let room := limit - sink.held.size
    ({ sink with held := sink.held.append (data.take room) }, data.drop room)

end Sink

end TypedStream
