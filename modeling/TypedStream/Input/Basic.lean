import TypedStream.Varint

/-!
# Byte input

What a reader asks of its input: exact runs of bytes, whether the end is reached, and, where the
input allows it, a seek. Two inputs implement it: a buffered stream over a device
(`InputStream`) and a plain cursor over a byte string (`ByteCursor`).

The state after a failed read is left open by the laws; after a failed seek the input goes on.
-/

namespace TypedStream

class ByteInput (σ : Type) where
  pos : σ → Nat
  /-- A bound on the bytes still to come. -/
  left : σ → Nat
  take : Nat → EStateM Error σ Bytes
  atEnd : EStateM Error σ Bool
  left_take : ∀ {count s bytes s'}, take count s = .ok bytes s' → left s' + count ≤ left s
  left_atEnd : ∀ {s b s'}, atEnd s = .ok b s' → left s' ≤ left s

class SeekableInput (σ : Type) extends ByteInput σ where
  /-- Moves to an absolute position, or, if the offset is negative, to that distance from the end.
  Returns the new position. -/
  seek : Int → EStateM Error σ Nat

def Decoder.exec [ByteInput σ] : Decoder α → EStateM Error σ α
  | .done value => fun s => .ok value s
  | .fail error => fun s => .error error s
  | .need count next => fun s =>
    match ByteInput.take count s with
    | .ok bytes s => (next bytes).exec s
    | .error error s => .error error s

/-- A varint, or nothing if the input ends where it would start. -/
def tryVarint [ByteInput σ] : EStateM Error σ (Option Nat) := do
  if ← ByteInput.atEnd then return none
  else return some (← Decoder.varint.exec)

def verifyFinished [ByteInput σ] : EStateM Error σ Unit := do
  if ← ByteInput.atEnd then return ()
  else throw (.format .notFinished)

theorem Decoder.left_exec [ByteInput σ] {decoder : Decoder α} {s : σ} {value : α} {s' : σ}
    (h : decoder.exec s = .ok value s') : ByteInput.left s' ≤ ByteInput.left s := by
  induction decoder generalizing s with
  | done v => simp only [exec, EStateM.Result.ok.injEq] at h; simp [h.2]
  | fail e => simp [exec] at h
  | need count next ih =>
    simp only [exec] at h
    split at h
    · next bytes t ht => exact Nat.le_trans (ih bytes h) (by have := ByteInput.left_take ht; omega)
    · simp at h

end TypedStream
