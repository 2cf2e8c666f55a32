import TypedStream.Codec.Basic

/-!
# Row-major arrays

A grid has dimensions and as many elements as their product says, the last dimension running
fastest. Its rank is either part of its type or stored in front of the dimensions.
-/

namespace TypedStream

structure Grid (α : Type) where
  shape : List Nat
  data : List α
  deriving Repr, DecidableEq

namespace Grid

/-- The product of the dimensions, unless one of the products on the way, taken from the left, is
too large for memory. -/
def elementCount? (shape : List Nat) : Option Nat :=
  shape.foldlM
    (fun product dim => if product * dim < sizeLimit then some (product * dim) else none) 1

def elementCount (shape : List Nat) : Except Malformed Nat :=
  match elementCount? shape with
  | some count => .ok count
  | none => .error (.shapeOverflow shape)

/-- A grid of the given elements, if they fill the shape exactly. -/
def ofData (shape : List Nat) (data : List α) : Except Malformed (Grid α) := do
  let needed ← elementCount shape
  if needed = data.length then return ⟨shape, data⟩
  else throw (.shapeMismatch shape needed data.length)

def rank (grid : Grid α) : Nat := grid.shape.length

/-- The place of an element in the data, after the dimensions that gave `flat`. -/
def place? : (shape : List Nat) → (coordinates : List Nat) → (flat : Nat) → Option Nat
  | dim :: shape, i :: coordinates, flat =>
    if i < dim then place? shape coordinates (flat * dim + i) else none
  | _, _, flat => some flat

def get? (grid : Grid α) (coordinates : List Nat) : Option α :=
  (place? grid.shape coordinates 0).bind (grid.data[·]?)

end Grid

namespace Codec

def readGrid (codec : Codec α) (shape : List Nat) : Decoder (Grid α) :=
  match Grid.elementCount shape with
  | .ok count => Grid.mk shape <$> codec.readRun count
  | .error cause => Decoder.malformed cause

def grid (rank : Nat) (codec : Codec α) : Codec (Grid α) :=
  single (fun g => g.shape.map TypedStream.varint ++ codec.runWrites g.data) do
    readGrid codec (← Decoder.varint.times rank)

def rankedGrid (codec : Codec α) : Codec (Grid α) :=
  single
    (fun g =>
      TypedStream.varint g.rank :: (g.shape.map TypedStream.varint ++ codec.runWrites g.data)) do
    readGrid codec (← Decoder.varint.times (← Decoder.varint))

end Codec

end TypedStream
