import Mathlib.Tactic.Tauto
import TypedStream.Proofs.Decoding
import TypedStream.Varint

/-!
# Spellings of varints

A reader takes more spellings of a number than a writer has: groups of nothing may follow the
highest one. What it takes is exactly the spellings of 64-bit numbers in ten bytes at most
(`Decoder.runAll_varint`), and of these the writer's is the shortest and the only one of its length
(`Spells.varint_shortest`). A varint that is not cut short is refused only in its tenth byte
(`Decoder.run_varint_error`).
-/

namespace TypedStream

/-- Groups of seven bits of a number, lowest first. Every byte but the last has its high bit set. -/
inductive Spells : Bytes → Nat → Prop
  | last {b : UInt8} (h : b.toNat < 128) : Spells [b] b.toNat
  | more {b : UInt8} {bytes : Bytes} {n : Nat} (h : 128 ≤ b.toNat) (hrest : Spells bytes n) :
    Spells (b :: bytes) (b.toNat - 128 + 128 * n)

/-- A spelling that a reader takes. -/
structure IsVarint (bytes : Bytes) (n : Nat) : Prop where
  spells : Spells bytes n
  short : bytes.length ≤ maxVarintBytes
  word : n < sizeLimit

theorem Spells.ne_nil {bytes : Bytes} {n : Nat} (h : Spells bytes n) : bytes ≠ [] := by
  rintro rfl
  cases h

/-- What a varint can hold of which at most `more` bytes follow the first. -/
def varintLimit : (more : Nat) → Nat
  | 0 => 2
  | more + 1 => 128 * varintLimit more

theorem varintLimit_pos (more : Nat) : 0 < varintLimit more := by
  induction more with
  | zero => exact Nat.two_pos
  | succ more ih => exact Nat.mul_pos (by decide) ih

-- ---------------------------------------------------------------------------
-- The writer's spelling
-- ---------------------------------------------------------------------------

theorem varint_ne_nil (n : Nat) : varint n ≠ [] := by
  unfold varint
  split <;> simp

@[simp] theorem varint_zero : varint 0 = [0] := by
  simp [varint]

theorem length_varint_pos (n : Nat) : 0 < (varint n).length :=
  List.length_pos_iff.mpr (varint_ne_nil n)

theorem spells_varint (n : Nat) : Spells (varint n) n := by
  fun_induction varint n with
  | case1 n h =>
    have hb : (UInt8.ofNat n).toNat = n := by
      rw [UInt8.toNat_ofNat']
      omega
    have hspells := Spells.last (hb.symm ▸ h)
    rwa [hb] at hspells
  | case2 n h ih =>
    have hb : (UInt8.ofNat (n % 128 + 128)).toNat = n % 128 + 128 := by
      rw [UInt8.toNat_ofNat']
      omega
    have hspells := Spells.more (by rw [hb]; exact Nat.le_add_left _ _) ih
    rwa [hb, Nat.add_sub_cancel, Nat.mod_add_div] at hspells

theorem varintLength_le {more n : Nat} (h : n < varintLimit more) :
    varintLength n ≤ more + 1 := by
  induction more generalizing n with
  | zero =>
    have hn : n < 2 := h
    have hone : varintLength n = 1 := by rw [varintLength, if_pos (by omega)]
    exact Nat.le_of_eq hone
  | succ more ih =>
    simp only [varintLimit] at h
    rw [varintLength]
    split
    · exact Nat.succ_le_succ (Nat.zero_le _)
    · exact Nat.succ_le_succ (ih (by omega))

theorem isVarint_varint {n : Nat} (h : n < sizeLimit) : IsVarint (varint n) n where
  spells := spells_varint n
  short := by
    rw [length_varint]
    exact varintLength_le h
  word := h

theorem varintLength_pos (n : Nat) : 0 < varintLength n := by
  unfold varintLength
  split <;> omega

theorem varintLength_mono {m n : Nat} (h : m ≤ n) : varintLength m ≤ varintLength n := by
  induction n using Nat.strongRecOn generalizing m with
  | ind n ih =>
    rw [varintLength]
    split
    · exact varintLength_pos n
    · next hm =>
      have hrest : varintLength (m / 128) ≤ varintLength (n / 128) :=
        ih (n / 128) (by omega) (Nat.div_le_div_right h)
      rw [varintLength.eq_def n, if_neg (by omega)]
      exact Nat.succ_le_succ hrest

/-- The writer's spelling is the shortest, and no other is as short. -/
theorem Spells.varint_shortest {bytes : Bytes} {n : Nat} (h : Spells bytes n) :
    (varint n).length ≤ bytes.length ∧
      ((varint n).length = bytes.length → varint n = bytes) := by
  induction h with
  | @last b h =>
    have hvarint : varint b.toNat = [b] := by rw [varint, if_pos h, UInt8.ofNat_toNat]
    rw [hvarint]
    exact ⟨Nat.le_refl _, fun _ => rfl⟩
  | @more b bytes n h hrest ih =>
    have hb := b.toNat_lt
    have hlength := List.length_pos_iff.mpr hrest.ne_nil
    rw [varint]
    split
    · rw [List.length_singleton, List.length_cons]
      exact ⟨by omega, fun heq => by omega⟩
    · have hlow : (b.toNat - 128 + 128 * n) % 128 + 128 = b.toNat := by omega
      have hhigh : (b.toNat - 128 + 128 * n) / 128 = n := by omega
      rw [hlow, hhigh, UInt8.ofNat_toNat, List.length_cons, List.length_cons]
      exact ⟨Nat.succ_le_succ ih.1, fun heq => by rw [ih.2 (Nat.succ.inj heq)]⟩

-- ---------------------------------------------------------------------------
-- What a reader takes
-- ---------------------------------------------------------------------------

namespace Decoder

theorem groups_mul (low n scale : Nat) :
    low * scale + n * (scale * 128) = (low + 128 * n) * scale := by
  rw [Nat.add_mul, Nat.mul_comm scale 128, ← Nat.mul_assoc, Nat.mul_comm n 128]

theorem runAll_varintGroups {more scale m : Nat} {bytes : Bytes} :
    (varintGroups more scale).runAll bytes = .ok m ↔
      ∃ n, Spells bytes n ∧ bytes.length ≤ more + 1 ∧ n < varintLimit more ∧ m = n * scale := by
  induction more generalizing scale m bytes with
  | zero =>
    rw [varintGroups, runAll_bind]
    constructor
    · rintro ⟨b, _, back, rfl, hb, h⟩
      obtain rfl := runAll_byte.mp hb
      split at h
      · next hle =>
        obtain ⟨rfl, rfl⟩ := runAll_pure.mp h
        exact ⟨b.toNat, .last (by omega), Nat.le_refl _, Nat.lt_succ_of_le hle, rfl⟩
      · exact absurd h runAll_malformed
    · rintro ⟨n, hspells, hlength, hlimit, rfl⟩
      cases hspells with
      | @last b _ =>
        refine ⟨b, [b], [], rfl, runAll_byte.mpr rfl, ?_⟩
        rw [if_pos (Nat.le_of_lt_succ hlimit)]
        exact runAll_pure.mpr ⟨rfl, rfl⟩
      | more _ hrest =>
        have hnil := List.eq_nil_of_length_eq_zero (Nat.le_zero.mp (Nat.le_of_succ_le_succ hlength))
        exact absurd hnil hrest.ne_nil
  | succ more ih =>
    have hpos := varintLimit_pos more
    rw [varintGroups, runAll_bind]
    constructor
    · rintro ⟨b, _, back, rfl, hb, h⟩
      obtain rfl := runAll_byte.mp hb
      split at h
      · next hlt =>
        obtain ⟨rfl, rfl⟩ := runAll_pure.mp h
        refine ⟨b.toNat, .last hlt, by simp, ?_, rfl⟩
        simp only [varintLimit]
        omega
      · next hge =>
        obtain ⟨_, front, _, rfl, hgroups, h⟩ := runAll_bind.mp h
        obtain ⟨rfl, rfl⟩ := runAll_pure.mp h
        obtain ⟨n, hspells, hlength, hlimit, rfl⟩ := ih.mp hgroups
        have hb := b.toNat_lt
        rw [List.append_nil]
        refine ⟨_, .more (Nat.le_of_not_lt hge) hspells, Nat.succ_le_succ hlength, ?_, ?_⟩
        · simp only [varintLimit]
          omega
        · exact groups_mul _ _ _
    · rintro ⟨n, hspells, hlength, hlimit, rfl⟩
      cases hspells with
      | @last b hlt =>
        refine ⟨b, [b], [], rfl, runAll_byte.mpr rfl, ?_⟩
        rw [if_pos hlt]
        exact runAll_pure.mpr ⟨rfl, rfl⟩
      | @more b bytes n hge hrest =>
        refine ⟨b, [b], bytes, rfl, runAll_byte.mpr rfl, ?_⟩
        simp only [varintLimit] at hlimit
        rw [if_neg (Nat.not_lt.mpr hge), runAll_bind]
        refine ⟨n * (scale * 128), bytes, [], (List.append_nil _).symm, ?_, ?_⟩
        · exact ih.mpr ⟨n, hrest, Nat.le_of_succ_le_succ hlength, by omega, rfl⟩
        · exact runAll_pure.mpr ⟨(groups_mul _ _ _).symm, rfl⟩

/-- A reader takes the spellings of 64-bit numbers in ten bytes at most, and nothing else. -/
theorem runAll_varint {n : Nat} {bytes : Bytes} :
    varint.runAll bytes = .ok n ↔ IsVarint bytes n := by
  rw [varint, runAll_varintGroups]
  constructor
  · rintro ⟨_, hspells, hlength, hlimit, rfl⟩
    rw [Nat.mul_one]
    exact ⟨hspells, hlength, hlimit⟩
  · rintro ⟨hspells, hlength, hlimit⟩
    exact ⟨n, hspells, hlength, hlimit, (Nat.mul_one n).symm⟩

end Decoder

theorem IsVarint.run {bytes : Bytes} {n : Nat} (h : IsVarint bytes n) (rest : Bytes) :
    Decoder.varint.run (bytes ++ rest) = .ok (n, rest) :=
  Decoder.run_eq_ok_iff.mpr ⟨bytes, rfl, Decoder.runAll_varint.mpr h⟩

theorem Decoder.run_varint {n : Nat} (h : n < sizeLimit) (rest : Bytes) :
    varint.run (TypedStream.varint n ++ rest) = .ok (n, rest) := (isVarint_varint h).run rest

-- ---------------------------------------------------------------------------
-- What a reader refuses
-- ---------------------------------------------------------------------------

/-- The first `more` bytes have their high bit set, and the next one is neither 0 nor 1. -/
def Overlong : (more : Nat) → Bytes → Prop
  | _, [] => False
  | 0, b :: _ => 1 < b.toNat
  | more + 1, b :: bytes => 128 ≤ b.toNat ∧ Overlong more bytes

/-- At most `more` bytes, all of which have their high bit set. -/
def Unfinished (more : Nat) (bytes : Bytes) : Prop :=
  bytes.length ≤ more ∧ ∀ b ∈ bytes, 128 ≤ b.toNat

theorem unfinished_cons {more : Nat} {b : UInt8} {bytes : Bytes} :
    Unfinished (more + 1) (b :: bytes) ↔ 128 ≤ b.toNat ∧ Unfinished more bytes := by
  simp only [Unfinished, List.length_cons, Nat.succ_le_succ_iff, List.forall_mem_cons]
  tauto

namespace Decoder

theorem run_varintGroups_error {more scale : Nat} {bytes : Bytes} {error : Error} :
    (varintGroups more scale).run bytes = .error error ↔
      (error = .endOfStream ∧ Unfinished more bytes) ∨
        (error = .format .varintTooLong ∧ Overlong more bytes) := by
  induction more generalizing scale bytes with
  | zero =>
    cases bytes with
    | nil => simp [varintGroups, run_bind, byte, run, Unfinished, Overlong, eq_comm]
    | cons b rest =>
      rw [varintGroups, run_bind_ok (run_byte_cons b rest)]
      split
      · next hle => simp [Unfinished, Overlong, Nat.not_lt.mpr hle]
      · next hgt => simp [malformed, run, Unfinished, Overlong, Nat.lt_of_not_le hgt, eq_comm]
  | succ more ih =>
    cases bytes with
    | nil => simp [varintGroups, run_bind, byte, run, Unfinished, Overlong, eq_comm]
    | cons b rest =>
      rw [varintGroups, run_bind_ok (run_byte_cons b rest), unfinished_cons, Overlong]
      split
      · next hlt => simp [Nat.not_le.mpr hlt]
      · next hge =>
        have hrest := @ih (scale * 128) rest
        simp only [Nat.le_of_not_lt hge, true_and, ← hrest, run_bind]
        cases (varintGroups more (scale * 128)).run rest with
        | error => rfl
        | ok => simp

/-- A varint fails where it is cut short, and in a tenth byte that would go beyond 64 bits. -/
theorem run_varint_error {bytes : Bytes} {error : Error} :
    varint.run bytes = .error error ↔
      (error = .endOfStream ∧ Unfinished 9 bytes) ∨
        (error = .format .varintTooLong ∧ Overlong 9 bytes) := run_varintGroups_error

end Decoder

end TypedStream
