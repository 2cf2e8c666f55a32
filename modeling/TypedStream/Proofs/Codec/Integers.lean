import Mathlib.Algebra.Ring.Nat
import TypedStream.Proofs.Codec.Scalars
import TypedStream.Proofs.Input.Buffered
import TypedStream.Proofs.Output

/-!
# Integers as varints

What stands in front of a stream decides what reading a varint makes of it: nothing, a varint that
is cut short, one that is too long, or a number, which is the sum of its groups
(`InputStream.tryVarint_grammar`). Integers are put down in the shortest spelling that is read back,
small magnitudes in no more bytes than large ones, and every kind of more than one byte takes the
numbers in its range and no others (`IntKind.spellings_canonical`).
-/

namespace TypedStream

open Lossless (Ahead)

-- ---------------------------------------------------------------------------
-- Groups
-- ---------------------------------------------------------------------------

/-- The number that groups of seven bits make, the lowest first. -/
def groupSum (bytes : Bytes) : Nat := (bytes.mapIdx fun j b => b.toNat % 128 * 128 ^ j).sum

theorem sum_mapIdx_mul (scale : Nat) (f : Nat → α → Nat) (values : List α) :
    (values.mapIdx fun j value => scale * f j value).sum = scale * (values.mapIdx f).sum := by
  induction values generalizing f with
  | nil => rfl
  | cons value values ih =>
    rw [List.mapIdx_cons, List.mapIdx_cons, List.sum_cons, List.sum_cons, Nat.mul_add,
      ih fun j => f (j + 1)]

theorem groupSum_cons (b : UInt8) (bytes : Bytes) :
    groupSum (b :: bytes) = b.toNat % 128 + 128 * groupSum bytes := by
  have hshift : ∀ j (b : UInt8), b.toNat % 128 * 128 ^ (j + 1) = 128 * (b.toNat % 128 * 128 ^ j) :=
    fun j b => by rw [Nat.pow_succ, ← Nat.mul_assoc, Nat.mul_comm]
  rw [groupSum, List.mapIdx_cons, List.sum_cons, Nat.pow_zero, Nat.mul_one]
  simp only [hshift]
  rw [sum_mapIdx_mul, groupSum]

theorem groupSum_single {b : UInt8} (h : b.toNat < 128) : groupSum [b] = b.toNat := by
  rw [groupSum_cons, Nat.mod_eq_of_lt h]
  rfl

theorem spells_iff {bytes : Bytes} {n : Nat} :
    Spells bytes n ↔ ∃ front last, bytes = front ++ [last] ∧ (∀ b ∈ front, 128 ≤ b.toNat) ∧
      last.toNat < 128 ∧ n = groupSum bytes := by
  constructor
  · intro h
    induction h with
    | @last b h =>
      exact ⟨[], b, rfl, by simp, h, (groupSum_single h).symm⟩
    | @more b bytes n h hrest ih =>
      obtain ⟨front, last, rfl, hfront, hlast, rfl⟩ := ih
      have hb := b.toNat_lt
      refine ⟨b :: front, last, rfl, List.forall_mem_cons.mpr ⟨h, hfront⟩, hlast, ?_⟩
      rw [groupSum_cons]
      omega
  · rintro ⟨front, last, rfl, hfront, hlast, rfl⟩
    induction front with
    | nil =>
      rw [List.nil_append, groupSum_single hlast]
      exact .last hlast
    | cons b front ih =>
      obtain ⟨hb, hfront⟩ := List.forall_mem_cons.mp hfront
      have hlt := b.toNat_lt
      have hlow : b.toNat % 128 = b.toNat - 128 := by omega
      rw [List.cons_append, groupSum_cons, hlow]
      exact .more hb (ih hfront)

/-- The bytes in front of a last one are those that ask for another. -/
theorem takeWhile_high {front : Bytes} {last : UInt8} (hfront : ∀ b ∈ front, 128 ≤ b.toNat)
    (hlast : last.toNat < 128) (rest : Bytes) :
    (front ++ [last] ++ rest).takeWhile (fun b => decide (128 ≤ b.toNat)) = front := by
  rw [List.append_assoc, List.takeWhile_append_of_pos (by simpa using hfront),
    List.singleton_append, List.takeWhile_cons, decide_eq_false (Nat.not_le.mpr hlast)]
  exact List.append_nil front

-- ---------------------------------------------------------------------------
-- Reading
-- ---------------------------------------------------------------------------

namespace InputStream

section
variable {input : InputStream} {pos : Nat} {bytes : Bytes}

theorem tryVarint_ok (ha : Ahead input pos bytes) (hne : bytes ≠ []) {n : Nat} {rest : Bytes}
    (hrun : Decoder.varint.run bytes = .ok (n, rest)) :
    ∃ front, bytes = front ++ rest ∧ IsVarint front n ∧
      ∃ input', tryVarint input = .ok (some n) input' ∧ Ahead input' (pos + front.length) rest := by
  obtain ⟨front, rfl, hfront⟩ := Decoder.run_eq_ok_iff.mp hrun
  have hvarint := Decoder.runAll_varint.mp hfront
  exact ⟨front, rfl, hvarint, tryVarint_front hvarint.spells.ne_nil ha hrun⟩

theorem tryVarint_none_iff (ha : Ahead input pos bytes) :
    (∃ input', tryVarint input = .ok none input') ↔ bytes = [] := by
  constructor
  · rintro ⟨input', h⟩
    by_contra hne
    cases hrun : Decoder.varint.run bytes with
    | error error =>
      obtain ⟨_, herror⟩ := tryVarint_fails hne ha hrun
      cases h.symm.trans herror
    | ok found =>
      obtain ⟨_, -, -, _, hok, -⟩ := tryVarint_ok ha hne hrun
      cases h.symm.trans hok
  · rintro rfl
    obtain ⟨input', h, -⟩ := tryVarint_nil ha
    exact ⟨input', h⟩

theorem tryVarint_error_iff (ha : Ahead input pos bytes) {error : Error} :
    (∃ input', tryVarint input = .error error input') ↔
      bytes ≠ [] ∧ Decoder.varint.run bytes = .error error := by
  constructor
  · rintro ⟨input', h⟩
    have hne : bytes ≠ [] := by
      rintro rfl
      obtain ⟨_, hnone, -⟩ := tryVarint_nil ha
      cases h.symm.trans hnone
    refine ⟨hne, ?_⟩
    cases hrun : Decoder.varint.run bytes with
    | error found =>
      obtain ⟨_, herror⟩ := tryVarint_fails hne ha hrun
      cases h.symm.trans herror
      rfl
    | ok found =>
      obtain ⟨_, -, -, _, hok, -⟩ := tryVarint_ok ha hne hrun
      cases h.symm.trans hok
  · rintro ⟨hne, hrun⟩
    exact tryVarint_fails hne ha hrun

/-- Where a varint may stand there is nothing; or at most nine bytes, which all ask for another; or
nine such bytes and a tenth that is neither 0 nor 1; or else a number. It is the sum of the groups
up to the first byte that asks for no other, it fits into 64 bits, and just these bytes, ten at
most, are taken. -/
theorem tryVarint_grammar (ha : Ahead input pos bytes) :
    ((∃ input', tryVarint input = .ok none input') ↔ bytes = []) ∧
    ((∃ input', tryVarint input = .error .endOfStream input') ↔
      bytes ≠ [] ∧ Unfinished 9 bytes) ∧
    ((∃ cause input', tryVarint input = .error (.format cause) input') ↔ Overlong 9 bytes) ∧
    (bytes ≠ [] → ¬ Unfinished 9 bytes → ¬ Overlong 9 bytes →
      ∃ front last rest, bytes = front ++ [last] ++ rest ∧ (∀ b ∈ front, 128 ≤ b.toNat) ∧
        last.toNat < 128 ∧ (front ++ [last]).length ≤ 10 ∧
        groupSum (front ++ [last]) < sizeLimit ∧
        ∃ input', tryVarint input = .ok (some (groupSum (front ++ [last]))) input' ∧
          Ahead input' (pos + (front ++ [last]).length) rest) := by
  refine ⟨tryVarint_none_iff ha, ?_, ?_, fun hne hfinished hlong => ?_⟩
  · rw [tryVarint_error_iff ha, Decoder.run_varint_error]
    simp
  · simp only [tryVarint_error_iff ha, Decoder.run_varint_error]
    constructor
    · rintro ⟨cause, -, ⟨hcause, -⟩ | ⟨-, hlong⟩⟩
      · cases hcause
      · exact hlong
    · intro hlong
      refine ⟨_, ?_, .inr ⟨rfl, hlong⟩⟩
      rintro rfl
      exact hlong
  · cases hrun : Decoder.varint.run bytes with
    | error error =>
      rcases Decoder.run_varint_error.mp hrun with ⟨-, h⟩ | ⟨-, h⟩
      · exact absurd h hfinished
      · exact absurd h hlong
    | ok found =>
      obtain ⟨taken, rfl, hvarint, hread⟩ := tryVarint_ok ha hne hrun
      obtain ⟨front, last, rfl, hfront, hlast, hsum⟩ := spells_iff.mp hvarint.spells
      have hword := hvarint.word
      rw [hsum] at hread hword
      exact ⟨front, last, _, rfl, hfront, hlast, hvarint.short, hword, hread⟩

/-- The largest number takes ten bytes. Without the last of them the varint is cut short, and with 2
in its place it is too long. -/
theorem tryVarint_grammar_largest :
    let front : Bytes := List.replicate 9 255
    (∃ input', tryVarint (InputStream.open (.ofBytes (front ++ [1] ++ [7])) 4 0) =
      .ok (some 18446744073709551615) input' ∧ Ahead input' 10 [7]) ∧
    (∃ input', tryVarint (InputStream.open (.ofBytes front) 4 0) =
      .error .endOfStream input') ∧
    (∃ cause input', tryVarint (InputStream.open (.ofBytes (front ++ [2])) 4 0) =
      .error (.format cause) input') ∧
    ∃ input', tryVarint (InputStream.open (.ofBytes []) 4 0) = .ok none input' := by
  intro front
  obtain ⟨-, -, -, hnumber⟩ :=
    tryVarint_grammar (InputStream.ahead_ofBytes (front ++ [1] ++ [7]) 4 0)
  obtain ⟨-, hcut, -⟩ := tryVarint_grammar (InputStream.ahead_ofBytes front 4 0)
  obtain ⟨-, -, hlong, -⟩ := tryVarint_grammar (InputStream.ahead_ofBytes (front ++ [2]) 4 0)
  obtain ⟨hnone, -⟩ := tryVarint_grammar (InputStream.ahead_ofBytes [] 4 0)
  refine ⟨?_, hcut.mpr ⟨by decide, by decide, by simp [front]⟩, hlong.mpr ?_, hnone.mpr rfl⟩
  · obtain ⟨high, last, rest, hbytes, hhigh, hlast, -, -, input', h, ha⟩ :=
      hnumber (by decide) (fun h => absurd h.1 (by decide))
        (by simp [front, List.replicate, Overlong])
    have hfront := takeWhile_high hhigh hlast rest
    rw [← hbytes] at hfront
    obtain rfl : front = high := hfront
    simp only [List.append_assoc, List.append_cancel_left_eq, List.singleton_append,
      List.cons.injEq] at hbytes
    obtain ⟨rfl, rfl⟩ := hbytes
    exact ⟨input', h, ha⟩
  · simp [front, List.replicate, Overlong]

end

end InputStream

-- ---------------------------------------------------------------------------
-- Zigzag words
-- ---------------------------------------------------------------------------

theorem sshiftRight_sign (v : BitVec 64) :
    v.sshiftRight 63 = if v.msb then BitVec.allOnes 64 else 0#64 := by
  have hlt := v.isLt
  cases hmsb : v.msb with
  | false =>
    have hsmall := (BitVec.msb_eq_false_iff_two_mul_lt).mp hmsb
    apply BitVec.eq_of_toNat_eq
    rw [BitVec.sshiftRight_eq_of_msb_false hmsb, BitVec.toNat_ushiftRight,
      Nat.shiftRight_eq_div_pow]
    exact Nat.div_eq_of_lt (by omega)
  | true =>
    have hlarge := (BitVec.msb_eq_true_iff_two_mul_ge).mp hmsb
    apply BitVec.eq_of_toNat_eq
    rw [BitVec.sshiftRight_eq_of_msb_true hmsb, BitVec.toNat_not, BitVec.toNat_ushiftRight,
      BitVec.toNat_not, Nat.shiftRight_eq_div_pow, Nat.div_eq_of_lt (by omega)]
    rfl

theorem zigzag_bits (v : BitVec 64) :
    zigzag v.toInt = ((v <<< 1) ^^^ v.sshiftRight 63).toNat := by
  have hlt := v.isLt
  have hdouble : (v <<< 1).toNat = 2 * v.toNat % 18446744073709551616 := by
    rw [BitVec.toNat_shiftLeft, Nat.shiftLeft_eq, Nat.mul_comm]
  rw [sshiftRight_sign, zigzag, BitVec.toInt_eq_msb_cond]
  cases hmsb : v.msb with
  | false =>
    have hsmall := (BitVec.msb_eq_false_iff_two_mul_lt).mp hmsb
    simp only [Bool.false_eq_true, if_false, BitVec.xor_zero, hdouble]
    split <;> omega
  | true =>
    have hlarge := (BitVec.msb_eq_true_iff_two_mul_ge).mp hmsb
    simp only [if_true, BitVec.xor_allOnes, BitVec.toNat_not, hdouble]
    split <;> omega

/-- Shifted up by one, and all bits turned over below zero. -/
theorem zigzag_words (v : Int64) :
    zigzag v.toInt = ((v.toUInt64 <<< 1) ^^^ (v >>> 63).toUInt64).toNat := zigzag_bits v.toBitVec

theorem unzigzag_bits (n : BitVec 64) :
    unzigzag n.toNat = ((n >>> 1) ^^^ -(n &&& 1#64)).toInt := by
  have hlt := n.isLt
  have hhalf : (n >>> 1).toNat = n.toNat / 2 := by
    rw [BitVec.toNat_ushiftRight, Nat.shiftRight_eq_div_pow]
  have hlow : (n &&& 1#64).toNat = n.toNat % 2 := by
    rw [BitVec.toNat_and]
    exact Nat.and_one_is_mod _
  rw [unzigzag]
  split
  · next heven =>
    have hzero : n &&& 1#64 = 0#64 := BitVec.eq_of_toNat_eq (hlow.trans heven)
    rw [hzero, BitVec.neg_zero, BitVec.xor_zero, BitVec.toInt_eq_toNat_of_lt (by omega), hhalf]
  · next hodd =>
    have hone : n &&& 1#64 = 1#64 := BitVec.eq_of_toNat_eq (hlow.trans (by simpa using hodd))
    have hones : -(1#64) = BitVec.allOnes 64 := by decide
    rw [hone, hones, BitVec.xor_allOnes, BitVec.toInt_not, hhalf]
    have hle : n.toNat / 2 < 9223372036854775808 := by omega
    simp only [Int.bmod]
    omega

/-- Shifted down by one, and all bits turned over if the lowest was set. -/
theorem unzigzag_words (n : UInt64) :
    unzigzag n.toNat = ((n >>> 1).toInt64 ^^^ -(n &&& 1).toInt64).toInt := unzigzag_bits n.toBitVec

theorem zigzag_lt_zigzag {a b : Int} (h : a.natAbs < b.natAbs) : zigzag a < zigzag b := by
  simp only [zigzag]
  split <;> split <;> omega

-- ---------------------------------------------------------------------------
-- Spellings of the integer kinds
-- ---------------------------------------------------------------------------

/-- The varint of a number is among its spellings, and all others are longer. -/
theorem Decoder.runAll_varint_shortest {n : Nat} (h : n < sizeLimit) :
    Decoder.varint.runAll (TypedStream.varint n) = .ok n ∧
      ∀ bytes, Decoder.varint.runAll bytes = .ok n →
        bytes = TypedStream.varint n ∨ (TypedStream.varint n).length < bytes.length := by
  refine ⟨Decoder.runAll_varint.mpr (isVarint_varint h), fun bytes hbytes => ?_⟩
  obtain ⟨hle, heq⟩ := (Decoder.runAll_varint.mp hbytes).spells.varint_shortest
  rcases Nat.eq_or_lt_of_le hle with hsame | hlonger
  · exact .inl (heq hsame).symm
  · exact .inr hlonger

theorem length_varint_mono {m n : Nat} (h : m ≤ n) : (varint m).length ≤ (varint n).length := by
  rw [length_varint, length_varint]
  exact varintLength_mono h

namespace Codec

section
variable {kind : IntKind} {bytes rest : Bytes} {n : Nat}

theorem run_int_varint (hk : kind.form = .varint) (h : Decoder.varint.run bytes = .ok (n, rest)) :
    (int kind).read.run bytes =
      if kind.Holds n then .ok (n, rest) else .error (.format (.outOfRange n kind)) := by
  simp only [int, intSingle, hk, single, Decoder.run_bind_ok h]
  split <;> rfl

theorem run_int_zigzag (hk : kind.form = .zigzag) (h : Decoder.varint.run bytes = .ok (n, rest)) :
    (int kind).read.run bytes =
      if kind.Holds (unzigzag n) then .ok (unzigzag n, rest)
      else .error (.format (.outOfRange (unzigzag n) kind)) := by
  have hrun : Decoder.zigzag.run bytes = .ok (unzigzag n, rest) := Decoder.run_map_ok h
  simp only [int, intSingle, hk, single, Decoder.run_bind_ok hrun]
  split <;> rfl

/-- A kind of one byte takes whatever the byte is: it is the low byte of just one number of the
kind. -/
theorem run_int_byte (hk : kind.form = .byte) (b : UInt8) (rest : Bytes) :
    ∃ v, kind.Holds v ∧ v % 256 = b.toNat ∧
      (int kind).read.run (b :: rest) = .ok (v, rest) := by
  have hb := b.toNat_lt
  have hrun : (int kind).read.run ([b] ++ rest) =
      .ok ((Layout.octet kind.signed).ofImage [b], rest) := by
    simp only [int, intSingle, hk, bulk, single]
    exact Decoder.run_map_ok (Decoder.run_bytes_append [b] rest)
  have himage : (Layout.octet kind.signed).ofImage [b] =
      if kind.signed && decide (128 ≤ b.toNat) then (b.toNat : Int) - 256 else b.toNat := rfl
  rw [himage] at hrun
  refine ⟨_, ?_, ?_, hrun⟩
  · cases kind <;> simp only [IntKind.form, reduceCtorEq] at hk
    · simp only [IntKind.Holds, IntKind.lo, IntKind.hi, IntKind.signed, IntKind.count,
        Bool.false_and, Bool.false_eq_true, ite_false]
      omega
    · simp only [IntKind.Holds, IntKind.lo, IntKind.hi, IntKind.signed, IntKind.count,
        Bool.true_and, decide_eq_true_eq, ite_true]
      split <;> omega
  · split <;> omega

/-- Nothing but what a kind holds is read as one of its numbers. -/
theorem holds_of_run_int {v : Int} (h : (int kind).read.run bytes = .ok (v, rest)) :
    kind.Holds v := by
  cases hk : kind.form with
  | byte =>
    cases bytes with
    | nil =>
      have hshort : (int kind).read.run [] = .error .endOfStream := by
        simp only [int, intSingle, hk, bulk, single]
        rfl
      cases hshort.symm.trans h
    | cons b tail =>
      obtain ⟨w, hw, -, hrun⟩ := run_int_byte hk b tail
      cases hrun.symm.trans h
      exact hw
  | varint | zigzag =>
    simp only [int, intSingle, hk, single] at h
    obtain ⟨w, more, -, hw⟩ := Decoder.run_bind_iff.mp h
    split at hw
    · next hholds =>
      cases hw
      exact hholds
    · cases hw

end

end Codec

namespace IntKind

/-- The varint of a word has between one and ten bytes, goes out as it is, is read back, and is the
shortest of all that are read as that word; larger words take no fewer bytes. Zigzag, which shifts
words and turns their bits over, pairs the signed words with the unsigned ones, a smaller magnitude
with a smaller word. A kind of more than one byte takes a varint just if what the varint says is in
its range; a kind of one byte takes any byte. -/
theorem spellings_canonical :
    (∀ n < sizeLimit, 1 ≤ (varint n).length ∧ (varint n).length ≤ maxVarintBytes ∧
      (∀ s : OutputStream, s.sink.limit = none →
        ∃ t, OutputStream.put (varint n) s = .ok () t ∧ t.Extends s (varint n)) ∧
      Decoder.varint.runAll (varint n) = .ok n ∧
      ∀ bytes, Decoder.varint.runAll bytes = .ok n →
        bytes = varint n ∨ (varint n).length < bytes.length) ∧
    (∀ m n, m ≤ n → (varint m).length ≤ (varint n).length) ∧
    (∀ v : Int64, zigzag v.toInt = ((v.toUInt64 <<< 1) ^^^ (v >>> 63).toUInt64).toNat ∧
      unzigzag (zigzag v.toInt) = v.toInt) ∧
    (∀ n : UInt64, unzigzag n.toNat = ((n >>> 1).toInt64 ^^^ -(n &&& 1).toInt64).toInt ∧
      zigzag (unzigzag n.toNat) = n.toNat) ∧
    (∀ a b : Int, a.natAbs < b.natAbs →
      zigzag a < zigzag b ∧ (varint (zigzag a)).length ≤ (varint (zigzag b)).length) ∧
    (∀ (kind : IntKind) (bytes rest : Bytes) (n : Nat),
      Decoder.varint.run bytes = .ok (n, rest) →
        (kind.form = .varint → (Codec.int kind).read.run bytes =
          if kind.Holds n then .ok (n, rest) else .error (.format (.outOfRange n kind))) ∧
        (kind.form = .zigzag → (Codec.int kind).read.run bytes =
          if kind.Holds (unzigzag n) then .ok (unzigzag n, rest)
          else .error (.format (.outOfRange (unzigzag n) kind)))) ∧
    ∀ kind : IntKind, kind.form = .byte → ∀ (b : UInt8) (rest : Bytes),
      ∃ v, kind.Holds v ∧ v % 256 = b.toNat ∧
        (Codec.int kind).read.run (b :: rest) = .ok (v, rest) := by
  refine ⟨fun n hn => ?canonical, fun m n => length_varint_mono,
    fun v => ⟨zigzag_words v, unzigzag_zigzag _⟩, fun n => ⟨unzigzag_words n, zigzag_unzigzag _⟩,
    fun a b hlt => ?ordered,
    fun kind bytes rest n h => ⟨fun hk => Codec.run_int_varint hk h,
      fun hk => Codec.run_int_zigzag hk h⟩,
    fun kind hk => Codec.run_int_byte hk⟩
  case canonical =>
    obtain ⟨hread, hshortest⟩ := Decoder.runAll_varint_shortest hn
    exact ⟨length_varint_pos n, (isVarint_varint hn).short,
      fun s hs => OutputStream.put_ok hs (varint n), hread, hshortest⟩
  case ordered =>
    have hzigzag := zigzag_lt_zigzag hlt
    exact ⟨hzigzag, length_varint_mono (Nat.le_of_lt hzigzag)⟩

/-- The largest word is read from its ten bytes. As an unsigned kind of 64 bits it is itself, as a
signed one it is the smallest number, and it is in the range of no narrower kind. -/
theorem spellings_canonical_largest :
    let bytes : Bytes := List.replicate 9 255 ++ [1]
    varint 18446744073709551615 = bytes ∧
    (Codec.int .u64).read.run bytes = .ok (18446744073709551615, []) ∧
    (Codec.int .i64).read.run bytes = .ok (-9223372036854775808, []) ∧
    (Codec.int .i32).read.run bytes =
      .error (.format (.outOfRange (-9223372036854775808) .i32)) ∧
    zigzag 63 < zigzag (-64) ∧ ∃ v, i8.Holds v ∧ (Codec.int .i8).read.run [200] = .ok (v, []) := by
  intro bytes
  obtain ⟨hwords, -, -, -, hordered, hkinds, hbyte⟩ := spellings_canonical
  have hvarint : varint 18446744073709551615 = bytes := by
    simp [varint, bytes, List.replicate]
  obtain ⟨-, -, -, hread, -⟩ := hwords 18446744073709551615 (by decide)
  rw [hvarint] at hread
  have hrun : Decoder.varint.run bytes = .ok (18446744073709551615, []) :=
    Decoder.runAll_eq_ok.mp hread
  obtain ⟨hu64, -⟩ := hkinds .u64 bytes [] _ hrun
  obtain ⟨-, hi64⟩ := hkinds .i64 bytes [] _ hrun
  obtain ⟨-, hi32⟩ := hkinds .i32 bytes [] _ hrun
  obtain ⟨v, hv, -, hi8⟩ := hbyte .i8 rfl 200 []
  exact ⟨hvarint, hu64 rfl, hi64 rfl, hi32 rfl, (hordered 63 (-64) (by decide)).1, v, hv, hi8⟩

end IntKind

end TypedStream
