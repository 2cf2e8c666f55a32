import TypedStream.Error
import TypedStream.Bytes

/-!
# Sources

The device that an input stream reads from: its content, a position, and the ways in which a
device can be slow or fail. A read call may deliver fewer bytes than asked for; none at all means
the end.
-/

namespace TypedStream

structure Source where
  content : Array UInt8
  pos : Nat := 0
  /-- The most bytes one read call delivers. -/
  chunk : Option Nat := none
  /-- Read calls at or after this position fail so. -/
  fault : Option (Nat × DeviceFault) := none
  pipe : Bool := false
  /-- How many seeks relative to the end succeed before one fails. -/
  endSeeks : Option Nat := none
  /-- How that one fails. -/
  endFault : DeviceFault := .other

namespace Source

def ofBytes (bytes : Bytes) : Source := { content := bytes.toArray }

def ofFile (file : Option Bytes) : Except Error Source :=
  match file with
  | some bytes => .ok (ofBytes bytes)
  | none => .error (.io .notFound)

def reach (source : Source) (count : Nat) : Nat :=
  let count := min count (source.chunk.getD count)
  match source.fault with
  | some (limit, _) => min count (limit - source.pos)
  | none => count

def read (source : Source) (count : Nat) : Except DeviceFault (Array UInt8 × Source) :=
  let deliver : Array UInt8 × Source :=
    let got := source.content.extract source.pos (source.pos + source.reach count)
    (got, { source with pos := source.pos + got.size })
  match source.fault with
  | some (limit, fault) => if limit ≤ source.pos then .error fault else .ok deliver
  | none => .ok deliver

def position (source : Source) : Except DeviceFault Nat :=
  if source.pipe then .error .unsupported else .ok source.pos

/-- Moves to a position, which is a 64-bit word. It may lie past the end. -/
def seekTo (source : Source) (target : Int) : Except DeviceFault Source :=
  if source.pipe then .error .unsupported
  else if target < 0 ∨ sizeLimit ≤ target then .error .invalidInput
  else .ok { source with pos := target.toNat }

def seekBy (source : Source) (delta : Int) : Except DeviceFault Source :=
  source.seekTo (source.pos + delta)

/-- Moves relative to the end. On a device that can be repositioned the call counts even if it
fails. -/
def seekEnd (source : Source) (delta : Int) : Except DeviceFault Unit × Source :=
  if source.pipe then (.error .unsupported, source)
  else
    match source.endSeeks with
    | some 0 => (.error source.endFault, { source with endSeeks := none })
    | count =>
      let source := { source with endSeeks := count.map (· - 1) }
      match source.seekTo (source.content.size + delta) with
      | .ok source => (.ok (), source)
      | .error fault => (.error fault, source)

theorem read_left {source : Source} {count : Nat} {got : Array UInt8} {source' : Source}
    (h : source.read count = .ok (got, source')) :
    source'.content.size - source'.pos + got.size ≤ source.content.size - source.pos := by
  unfold read at h
  split at h
  · split at h
    · simp at h
    · simp only [Except.ok.injEq, Prod.mk.injEq] at h
      obtain ⟨rfl, rfl⟩ := h
      simp only [Array.size_extract]
      omega
  · simp only [Except.ok.injEq, Prod.mk.injEq] at h
    obtain ⟨rfl, rfl⟩ := h
    simp only [Array.size_extract]
    omega

end Source

end TypedStream
