import TypedStream.Input.Basic
import TypedStream.Input.Source

/-!
# Buffered input streams

An input stream reads its source through a buffer. One read call fills an empty buffer; a run at
least as long as the buffer bypasses it once it is empty. A seek to a place that the buffer still
holds does not touch the source. None of this shows in the bytes delivered.
-/

namespace TypedStream

structure InputStream where
  source : Source
  capacity : Nat
  buffer : Array UInt8 := #[]
  /-- How many bytes of the buffer have been handed out. -/
  used : Nat := 0
  pos : Nat := 0

def defaultBufferSize : Nat := 64 * 1024

namespace InputStream

/-- A stream over a source, positions counted from `offset`. The buffer holds a varint at least. -/
def «open» (source : Source) (bufferSize : Nat) (offset : Nat) : InputStream :=
  { source, capacity := max bufferSize maxVarintBytes, pos := offset }

def buffered (s : InputStream) : Nat := s.buffer.size - s.used

def peek (s : InputStream) (count : Nat) : Bytes :=
  (s.buffer.extract s.used (s.used + count)).toList

def fill : EStateM DeviceFault InputStream Unit := fun s =>
  if 0 < s.buffered then .ok () s
  else
    match s.source.read s.capacity with
    | .ok (buffer, source) => .ok () { s with source, buffer, used := 0 }
    | .error fault => .error fault { s with buffer := #[], used := 0 }

/-- At most `count` bytes, and at least one unless the source ends or `count` is zero. -/
def readSome (count : Nat) : EStateM DeviceFault InputStream Bytes := fun s =>
  if s.buffered = 0 ∧ s.capacity ≤ count then
    let s := { s with buffer := #[], used := 0 }
    match s.source.read count with
    | .ok (got, source) => .ok got.toList { s with source }
    | .error fault => .error fault s
  else
    match fill s with
    | .ok () s =>
      let got := s.peek count
      .ok got { s with used := s.used + got.length }
    | .error fault s => .error fault s

/-- `wanted` further bytes after those already found (newest first). -/
def gather (wanted : Nat) (found : Bytes) (s : InputStream) :
    EStateM.Result Error InputStream Bytes :=
  if _h : wanted = 0 then .ok found.reverse s
  else
    match readSome wanted s with
    | .error fault s => .error (Error.ofFault fault) s
    | .ok got s =>
      if _h : got.length = 0 then .error .endOfStream s
      else gather (wanted - got.length) (got.reverseAux found) s
termination_by wanted
decreasing_by omega

/-- Exactly `count` bytes. The position moves only if all of them arrive. -/
def take (count : Nat) : EStateM Error InputStream Bytes := fun s =>
  if count ≤ s.buffered then
    .ok (s.peek count) { s with used := s.used + count, pos := s.pos + count }
  else
    match gather count [] s with
    | .ok bytes s => .ok bytes { s with pos := s.pos + count }
    | .error error s => .error error s

def atEnd : EStateM Error InputStream Bool := fun s =>
  match fill s with
  | .ok () s => .ok (s.buffered == 0) s
  | .error fault s => .error (Error.ofFault fault) s

/-- Moves to an absolute position, or from the end if `offset` is negative. A seek that fails
leaves buffer and position alone. The distance to an absolute position is a signed 64-bit word, so
a stream beyond the lower half of the positions cannot seek back as far as it likes. -/
def seek (offset : Int) : EStateM Error InputStream Nat := fun s =>
  if offset < 0 then
    match s.source.seekEnd offset with
    | (.ok (), source) =>
      .ok source.pos { s with source, buffer := #[], used := 0, pos := source.pos }
    | (.error fault, source) => .error (Error.ofFault fault) { s with source }
  else
    let delta := Int.bmod (offset - s.pos) sizeLimit
    if 0 ≤ s.used + delta ∧ s.used + delta ≤ s.buffer.size then
      .ok offset.toNat { s with used := (s.used + delta).toNat, pos := offset.toNat }
    else
      match s.source.seekBy (delta - s.buffered) with
      | .ok source =>
        .ok offset.toNat { s with source, buffer := #[], used := 0, pos := offset.toNat }
      | .error fault => .error (Error.ofFault fault) s

/-- Bytes still to come if the source does not fail. -/
def left (s : InputStream) : Nat := s.buffered + (s.source.content.size - s.source.pos)

theorem left_fill {s s' : InputStream} (h : fill s = .ok () s') : s'.left ≤ s.left := by
  unfold fill at h
  split at h
  · simp at h; simp [h]
  · split at h
    · next buffer source hr =>
      simp only [EStateM.Result.ok.injEq, true_and] at h
      subst h
      have := Source.read_left hr
      simp only [left, buffered]
      omega
    · simp at h

theorem left_readSome {count : Nat} {s s' : InputStream} {got : Bytes}
    (h : readSome count s = .ok got s') : s'.left + got.length ≤ s.left := by
  unfold readSome at h
  split at h
  · dsimp only at h
    split at h
    · next bytes source hr =>
      simp only [EStateM.Result.ok.injEq] at h
      obtain ⟨rfl, rfl⟩ := h
      have := Source.read_left hr
      simp [left, buffered] at *
      omega
    · simp at h
  · split at h
    · next t ht =>
      simp only [EStateM.Result.ok.injEq] at h
      obtain ⟨rfl, rfl⟩ := h
      have := left_fill ht
      simp [left, buffered, peek] at *
      omega
    · simp at h

theorem left_gather {wanted : Nat} {found : Bytes} {s s' : InputStream} {bytes : Bytes}
    (h : gather wanted found s = .ok bytes s') : s'.left + wanted ≤ s.left := by
  fun_induction gather wanted found s with
  | case1 => simp only [EStateM.Result.ok.injEq] at h; simp [h.2]
  | case2 => simp at h
  | case3 => simp at h
  | case4 wanted found s hw got t ht hg ih =>
    have := left_readSome ht
    have := ih h
    omega

theorem left_take {count : Nat} {s s' : InputStream} {bytes : Bytes}
    (h : take count s = .ok bytes s') : s'.left + count ≤ s.left := by
  unfold take at h
  split at h
  · simp only [EStateM.Result.ok.injEq] at h
    obtain ⟨rfl, rfl⟩ := h
    simp only [left, buffered] at *
    omega
  · split at h
    · next bytes t ht =>
      simp only [EStateM.Result.ok.injEq] at h
      obtain ⟨rfl, rfl⟩ := h
      have := left_gather ht
      exact this
    · simp at h

theorem left_atEnd {s s' : InputStream} {b : Bool} (h : atEnd s = .ok b s') :
    s'.left ≤ s.left := by
  unfold atEnd at h
  split at h
  · next t ht =>
    simp only [EStateM.Result.ok.injEq] at h
    obtain ⟨-, rfl⟩ := h
    exact left_fill ht
  · simp at h

end InputStream

instance : SeekableInput InputStream where
  pos := InputStream.pos
  left := InputStream.left
  take := InputStream.take
  atEnd := InputStream.atEnd
  seek := InputStream.seek
  left_take := InputStream.left_take
  left_atEnd := InputStream.left_atEnd

end TypedStream
