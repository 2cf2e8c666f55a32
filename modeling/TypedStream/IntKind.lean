/-!
# Integer kinds

The ten integer types of the format. A kind fixes a range and the wire form: one raw byte for the
8-bit kinds, a varint for the wider unsigned ones, a zigzag varint for the wider signed ones.
-/

namespace TypedStream

/-- The number of 64-bit words. Sizes and counts held in memory are below this bound. -/
def sizeLimit : Nat := 18446744073709551616

/-- A 64-bit word read as a signed offset. Words in the upper half turn negative. -/
def signedOffset (word : Nat) : Int := Int.bmod word sizeLimit

/-- How an integer is laid down: as itself, as a varint, or as the varint of its zigzag image. -/
inductive IntForm where
  | byte
  | varint
  | zigzag
  deriving DecidableEq, Repr

/-- The integer types. `usize` and `isize` are 64 bits wide. -/
inductive IntKind where
  | u8 | u16 | u32 | u64 | usize
  | i8 | i16 | i32 | i64 | isize
  deriving DecidableEq, Repr

namespace IntKind

def name : IntKind → String
  | u8 => "u8"
  | u16 => "u16"
  | u32 => "u32"
  | u64 => "u64"
  | usize => "usize"
  | i8 => "i8"
  | i16 => "i16"
  | i32 => "i32"
  | i64 => "i64"
  | isize => "isize"

def signed : IntKind → Bool
  | u8 | u16 | u32 | u64 | usize => false
  | i8 | i16 | i32 | i64 | isize => true

def form : IntKind → IntForm
  | u8 | i8 => .byte
  | u16 | u32 | u64 | usize => .varint
  | i16 | i32 | i64 | isize => .zigzag

def count : IntKind → Nat
  | u8 | i8 => 256
  | u16 | i16 => 65536
  | u32 | i32 => 4294967296
  | u64 | usize | i64 | isize => sizeLimit

def lo (k : IntKind) : Int := if k.signed then -(k.count / 2 : Nat) else 0

def hi (k : IntKind) : Int := k.lo + k.count - 1

def Holds (k : IntKind) (v : Int) : Prop := k.lo ≤ v ∧ v ≤ k.hi

instance (k : IntKind) (v : Int) : Decidable (k.Holds v) :=
  inferInstanceAs (Decidable (_ ∧ _))

/-- What a cast to the kind leaves of an integer: the number of the kind that differs from it by a
multiple of `count`. -/
def wrap (k : IntKind) (v : Int) : Int := k.lo + (v - k.lo) % k.count

theorem holds_wrap (k : IntKind) (v : Int) : k.Holds (k.wrap v) := by
  have hpos : (0 : Int) < k.count := by cases k <;> decide
  have hlow := Int.emod_nonneg (v - k.lo) (Int.ne_of_gt hpos)
  have hhigh := Int.emod_lt_of_pos (v - k.lo) hpos
  simp only [Holds, hi, wrap]
  omega

theorem wrap_of_holds {k : IntKind} {v : Int} (h : k.Holds v) : k.wrap v = v := by
  obtain ⟨hlow, hhigh⟩ := h
  simp only [hi] at hhigh
  rw [wrap, Int.emod_eq_of_lt (by omega) (by omega)]
  omega

end IntKind

end TypedStream
