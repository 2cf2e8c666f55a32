import TypedStream.Decoder

/-!
# Varints

Numbers in groups of seven bits, least significant group first; every byte but the last has its
high bit set. A varint holds 64 bits: it has at most ten bytes, and a tenth byte is 0 or 1.
Signed numbers go through the zigzag map, which keeps small magnitudes small.
-/

namespace TypedStream

def maxVarintBytes : Nat := 10

/-- The shortest varint of a number. -/
def varint (n : Nat) : Bytes :=
  if n < 128 then [UInt8.ofNat n] else UInt8.ofNat (n % 128 + 128) :: varint (n / 128)
termination_by n
decreasing_by omega

/-- The bytes of a shortest varint: one, and one more each time seven bits are taken off and
something is left. -/
def varintLength (n : Nat) : Nat :=
  if n / 128 = 0 then 1 else varintLength (n / 128) + 1
termination_by n
decreasing_by omega

theorem length_varint (n : Nat) : (varint n).length = varintLength n := by
  fun_induction varint n with
  | case1 n h =>
    rw [varintLength, if_pos (Nat.div_eq_of_lt h)]
    rfl
  | case2 n h ih =>
    rw [varintLength, if_neg (by omega), List.length_cons, ih]

/-- 0, -1, 1, -2, … become 0, 1, 2, 3, … -/
def zigzag (v : Int) : Nat := if 0 ≤ v then 2 * v.toNat else 2 * (-v).toNat - 1

def unzigzag (n : Nat) : Int := if n % 2 = 0 then (n / 2 : Nat) else -((n / 2 : Nat) + 1)

namespace Decoder

/-- The rest of a varint, of which `more` bytes may follow the next one; the next byte counts
`scale`. -/
def varintGroups : (more : Nat) → (scale : Nat) → Decoder Nat
  | 0, scale => do
    let b ← byte
    if b.toNat ≤ 1 then return b.toNat * scale else malformed .varintTooLong
  | more + 1, scale => do
    let b ← byte
    if b.toNat < 128 then return b.toNat * scale
    else return (b.toNat - 128) * scale + (← varintGroups more (scale * 128))

/-- An unsigned varint, in any spelling of at most ten bytes. -/
def varint : Decoder Nat := varintGroups (maxVarintBytes - 1) 1

def zigzag : Decoder Int := unzigzag <$> varint

end Decoder

@[simp] theorem unzigzag_zigzag (v : Int) : unzigzag (zigzag v) = v := by
  unfold unzigzag zigzag
  split <;> split <;> omega

@[simp] theorem zigzag_unzigzag (n : Nat) : zigzag (unzigzag n) = n := by
  unfold unzigzag zigzag
  split <;> split <;> omega

end TypedStream
