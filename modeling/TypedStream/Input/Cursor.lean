import TypedStream.Input.Basic

/-!
# Byte cursors

The plainest input: a byte string and a position in it. A device fault, if there is one, stands at
a position; a read that would pass it fails, and so does one at or after it.
-/

namespace TypedStream

structure ByteCursor where
  content : Bytes
  pos : Nat := 0
  fault : Option (Nat × DeviceFault) := none
  /-- How many seeks relative to the end succeed before one fails. -/
  endSeeks : Option Nat := none
  /-- How that one fails. -/
  endFault : DeviceFault := .other

namespace ByteCursor

def rest (c : ByteCursor) : Bytes := c.content.drop c.pos

/-- The fault that a read meets before it meets the end. -/
def faultAhead? (c : ByteCursor) : Option DeviceFault :=
  match c.fault with
  | some (limit, fault) => if limit ≤ max c.pos c.content.length then some fault else none
  | none => none

/-- The fault that stands at or before the position. -/
def faultHere? (c : ByteCursor) : Option DeviceFault :=
  match c.fault with
  | some (limit, fault) => if limit ≤ c.pos then some fault else none
  | none => none

/-- The first position that cannot be read. -/
def bound (c : ByteCursor) : Nat :=
  match c.fault with
  | some (limit, _) => min limit c.content.length
  | none => c.content.length

def take (count : Nat) : EStateM Error ByteCursor Bytes := fun c =>
  if count = 0 ∨ c.pos + count ≤ c.bound then
    .ok (c.rest.take count) { c with pos := c.pos + count }
  else
    match c.faultAhead? with
    | some fault => .error (Error.ofFault fault) c
    | none => .error .endOfStream c

def atEnd : EStateM Error ByteCursor Bool := fun c =>
  match c.faultHere? with
  | some fault => .error (Error.ofFault fault) c
  | none => .ok (decide (c.content.length ≤ c.pos)) c

def seek (offset : Int) : EStateM Error ByteCursor Nat := fun c =>
  if offset < 0 then
    match c.endSeeks with
    | some 0 => .error (Error.ofFault c.endFault) { c with endSeeks := none }
    | count =>
      let c := { c with endSeeks := count.map (· - 1) }
      let target := c.content.length + offset
      if target < 0 then .error (.io .invalidInput) c
      else .ok target.toNat { c with pos := target.toNat }
  else .ok offset.toNat { c with pos := offset.toNat }

def left (c : ByteCursor) : Nat := c.content.length - c.pos

theorem bound_le (c : ByteCursor) : c.bound ≤ c.content.length := by
  unfold bound
  split <;> omega

theorem left_take {count : Nat} {c c' : ByteCursor} {bytes : Bytes}
    (h : take count c = .ok bytes c') : c'.left + count ≤ c.left := by
  unfold take at h
  split at h
  · next hc =>
    simp only [EStateM.Result.ok.injEq] at h
    obtain ⟨-, rfl⟩ := h
    have := c.bound_le
    simp only [left]
    omega
  · split at h <;> simp at h

theorem left_atEnd {c c' : ByteCursor} {b : Bool} (h : atEnd c = .ok b c') :
    c'.left ≤ c.left := by
  unfold atEnd at h
  split at h
  · simp at h
  · simp only [EStateM.Result.ok.injEq] at h
    simp [h.2]

end ByteCursor

instance : SeekableInput ByteCursor where
  pos := ByteCursor.pos
  left := ByteCursor.left
  take := ByteCursor.take
  atEnd := ByteCursor.atEnd
  seek := ByteCursor.seek
  left_take := ByteCursor.left_take
  left_atEnd := ByteCursor.left_atEnd

end TypedStream
