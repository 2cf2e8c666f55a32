import TypedStream.Codec.Basic

/-!
# The random-access index

An index says where each step starts, where each item of a stream starts, and how the items are
grouped into blocks, all by step name. A block is recorded by the number of items before it.
-/

namespace TypedStream

structure ItemLocation where
  offset : Nat
  /-- Items left in the item's block, with the item itself. -/
  remaining : Nat
  deriving DecidableEq, Repr

structure StreamIndex where
  steps : List (String × Nat) := []
  items : List (String × List Nat) := []
  /-- The first item of each of a stream's blocks. -/
  blocks : List (String × List Nat) := []
  deriving DecidableEq, Repr

namespace StreamIndex

def itemsOf (index : StreamIndex) (step : String) : List Nat :=
  (Assoc.find? step index.items).getD []

def blocksOf (index : StreamIndex) (step : String) : List Nat :=
  (Assoc.find? step index.blocks).getD []

/-- Records where a step starts. Only the first record of a step counts. -/
def markStep (index : StreamIndex) (step : String) (offset : Nat) : StreamIndex :=
  { index with steps := Assoc.alter step (·.getD offset) index.steps }

def addBlock (index : StreamIndex) (step : String) (offsets : List Nat) : StreamIndex :=
  let start := (index.itemsOf step).length
  { index with
    items := Assoc.alter step (fun there => there.getD [] ++ offsets) index.items
    blocks := Assoc.alter step (fun there => there.getD [] ++ [start]) index.blocks }

/-- A block of a single item. -/
def addItem (index : StreamIndex) (step : String) (offset : Nat) : StreamIndex :=
  index.addBlock step [offset]

def stepOffset (index : StreamIndex) (step : String) : Except Error Nat :=
  match Assoc.find? step index.steps with
  | some offset => .ok offset
  | none => .error (.index (.unknownStep step))

def count (index : StreamIndex) (step : String) : Nat := (index.itemsOf step).length

def blockCount (index : StreamIndex) (step : String) : Nat := (index.blocksOf step).length

/-- Halves the `size` entries from `base` on until one is left, keeping to the later half if it
starts at or below `item`. -/
def bisect (starts : Array Nat) (item : Nat) (base size : Nat) : Nat :=
  if size ≤ 1 then base
  else
    let half := size / 2
    if starts.getD (base + half) 0 ≤ item then bisect starts item (base + half) (size - half)
    else bisect starts item base (size - half)
termination_by size
decreasing_by all_goals omega

/-- The place of the first block start after `item`, in a list of starts that ascends. -/
def blockAfter (starts : List Nat) (item : Nat) : Nat :=
  match starts with
  | [] => 0
  | starts =>
    let base := bisect starts.toArray item 0 starts.length
    if starts.getD base 0 ≤ item then base + 1 else base

/-- Where item `item` of a stream lies. Its block ends where the next one starts, or with the
stream. -/
def find (index : StreamIndex) (step : String) (item : Nat) : Except Error ItemLocation :=
  let offsets := index.itemsOf step
  let starts := index.blocksOf step
  match offsets[item]? with
  | none => .error (.index (.itemOutOfRange item step offsets.length))
  | some offset =>
    .ok ⟨offset, (starts[blockAfter starts item]?).getD offsets.length - item⟩

end StreamIndex

end TypedStream
