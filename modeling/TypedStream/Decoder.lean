import TypedStream.Bytes
import TypedStream.Error

/-!
# Decoders

A decoder is data: it asks for a number of bytes and says what it makes of them, or it stops with
a value or an error. It knows nothing about where the bytes come from, so the same decoder runs on
a byte string (`Decoder.run`) and on any input stream (`Decoder.exec`), and it can only move
forward.
-/

namespace TypedStream

/-- A program that takes bytes from the front of an input. -/
inductive Decoder (α : Type) where
  | done (value : α)
  | fail (error : Error)
  | need (count : Nat) (next : Bytes → Decoder α)

namespace Decoder

def bind : Decoder α → (α → Decoder β) → Decoder β
  | done value, f => f value
  | fail error, _ => fail error
  | need count next, f => need count fun bytes => (next bytes).bind f

instance : Monad Decoder where
  pure := done
  bind := bind

/-- Runs on a byte string and returns the value with the bytes left over. -/
def run : Decoder α → Bytes → Except Error (α × Bytes)
  | done value, bytes => .ok (value, bytes)
  | fail error, _ => .error error
  | need count next, bytes =>
    let front := bytes.take count
    if front.length = count then (next front).run (bytes.drop count) else .error .endOfStream

def runAll (decoder : Decoder α) (input : Bytes) : Except Error α :=
  match decoder.run input with
  | .ok (value, []) => .ok value
  | .ok _ => .error (.format .notFinished)
  | .error error => .error error

def malformed (cause : Malformed) : Decoder α := fail (.format cause)

def bytes (count : Nat) : Decoder Bytes := need count done

def byte : Decoder UInt8 := need 1 fun bytes => done (bytes.headD 0)

def fixed (width : Nat) : Decoder Nat := need width fun bytes => done (ofLittleEndian bytes)

/-- The values of `count` runs, after those already collected (newest first). An item without
bytes is not asked for again. -/
def collect (item : Decoder α) : (count : Nat) → List α → Decoder (List α)
  | 0, found => done found.reverse
  | count + 1, found =>
    match item with
    | done value => (done value).collect count (value :: found)
    | item => item.bind fun value => item.collect count (value :: found)

theorem collect_succ (item : Decoder α) (count : Nat) (found : List α) :
    item.collect (count + 1) found =
      item.bind fun value => item.collect count (value :: found) := by
  cases item <;> rfl

def times (item : Decoder α) (count : Nat) : Decoder (List α) := item.collect count []

end Decoder

end TypedStream
