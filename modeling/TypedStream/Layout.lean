import TypedStream.Decoder

/-!
# Fixed layouts

Types of one-byte integers and floats have a fixed size, and a run of their values can be copied
as one block of bytes. A layout says what the block holds for each value. Reading a run goes by
chunks of about `bulkChunk` bytes, so that a damaged count is noticed before much is read.
-/

namespace TypedStream

/-- The bytes that values of one fixed size occupy in a block. -/
structure Layout (α : Type) where
  size : Nat
  image : α → Bytes
  ofImage : Bytes → α

def bulkChunk : Nat := 64 * 1024

namespace Layout

/-- Values a bulk read takes with one request, at least one. -/
def perChunk (layout : Layout α) : Nat := max 1 (bulkChunk / max 1 layout.size)

/-- The values of a block that holds `count` of them, in front of those already collected
(newest first). -/
def split (layout : Layout α) : (count : Nat) → Bytes → List α → List α
  | 0, _, found => found
  | count + 1, block, found =>
    layout.split count (block.drop layout.size)
      (layout.ofImage (block.take layout.size) :: found)

def block (layout : Layout α) (values : List α) : Bytes := values.flatMap layout.image

def collect (layout : Layout α) (count : Nat) (found : List α) : Decoder (List α) :=
  if _h : count = 0 then .done found.reverse
  else
    let now := min count layout.perChunk
    .need (now * layout.size) fun block =>
      layout.collect (count - now) (layout.split now block found)
termination_by count
decreasing_by simp only [perChunk]; omega

def run (layout : Layout α) (count : Nat) : Decoder (List α) := layout.collect count []

def word (width : Nat) : Layout Nat where
  size := width
  image := littleEndian width
  ofImage := ofLittleEndian

def byte : Layout UInt8 where
  size := 1
  image b := [b]
  ofImage block := block.headD 0

/-- An 8-bit integer; negative ones in two's complement. -/
def octet (signed : Bool) : Layout Int where
  size := 1
  image v := [UInt8.ofNat (v % 256).toNat]
  ofImage block :=
    let n := ofLittleEndian block
    if signed && n ≥ 128 then (n : Int) - 256 else n

def xmap (f : α → β) (g : β → α) (layout : Layout α) : Layout β where
  size := layout.size
  image v := layout.image (g v)
  ofImage block := f (layout.ofImage block)

def array (n : Nat) (layout : Layout α) : Layout (List α) where
  size := n * layout.size
  image := layout.block
  ofImage block := (layout.split n block []).reverse

def nil : Layout (List α) where
  size := 0
  image _ := []
  ofImage _ := []

def cons (head : Layout α) (tail : Layout (List α)) : Layout (List α) where
  size := head.size + tail.size
  image
    | [] => []
    | v :: vs => head.image v ++ tail.image vs
  ofImage block := head.ofImage (block.take head.size) :: tail.ofImage (block.drop head.size)

end Layout

end TypedStream
