import TypedStream.Proofs.Codec.Blocks
import TypedStream.Proofs.Varint

/-!
# Codecs of scalars

Integers of every kind, words, texts, booleans and the unit: each codec carries exactly
the values of its type that a 64-bit machine holds.
-/

namespace TypedStream

-- ---------------------------------------------------------------------------
-- Integer kinds
-- ---------------------------------------------------------------------------

theorem zigzag_lt {v : Int} (h : IntKind.i64.Holds v) : zigzag v < sizeLimit := by
  have hlo : IntKind.i64.lo = -9223372036854775808 := rfl
  have hhi : IntKind.i64.hi = 9223372036854775807 := rfl
  obtain ⟨h₁, h₂⟩ := h
  rw [hlo] at h₁
  rw [hhi] at h₂
  simp only [zigzag, sizeLimit]
  split <;> omega

theorem Decoder.run_zigzag {v : Int} (h : IntKind.i64.Holds v) (rest : Bytes) :
    zigzag.run (TypedStream.varint (TypedStream.zigzag v) ++ rest) = .ok (v, rest) := by
  have hr := run_map_ok (f := unzigzag) (run_varint (zigzag_lt h) rest)
  rwa [unzigzag_zigzag] at hr

namespace IntKind

theorem holds_varint {kind : IntKind} (hk : kind.form = .varint) {v : Int} (h : kind.Holds v) :
    0 ≤ v ∧ v.toNat < sizeLimit := by
  obtain ⟨h₁, h₂⟩ := h
  cases kind <;>
    simp only [form, reduceCtorEq, lo, hi, signed, count, sizeLimit, Bool.false_eq_true, ite_false]
      at hk h₁ h₂ ⊢ <;> omega

theorem holds_zigzag {kind : IntKind} (hk : kind.form = .zigzag) {v : Int} (h : kind.Holds v) :
    i64.Holds v := by
  obtain ⟨h₁, h₂⟩ := h
  cases kind <;>
    simp only [form, reduceCtorEq, Holds, lo, hi, signed, count, sizeLimit, ite_true]
      at hk h₁ h₂ ⊢ <;> omega

end IntKind

theorem Layout.lays_octet (kind : IntKind) (hk : kind.form = .byte) {v : Int}
    (h : kind.Holds v) : (Layout.octet kind.signed).Lays v := by
  refine ⟨rfl, ?_⟩
  have hb : (UInt8.ofNat (v % 256).toNat).toNat = (v % 256).toNat := by
    rw [UInt8.toNat_ofNat']
    omega
  obtain ⟨h₁, h₂⟩ := h
  simp only [octet, ofLittleEndian, Nat.mul_zero, Nat.add_zero, hb]
  cases kind <;> simp only [IntKind.form, reduceCtorEq] at hk
  · simp only [IntKind.lo, IntKind.hi, IntKind.signed, IntKind.count, Bool.false_eq_true,
      ite_false, Bool.false_and] at h₁ h₂ ⊢
    omega
  · simp only [IntKind.lo, IntKind.hi, IntKind.signed, IntKind.count, ite_true, Bool.true_and,
      decide_eq_true_eq] at h₁ h₂ ⊢
    split <;> omega

namespace Codec

theorem carries_varint (fits : Nat → Prop) :
    varint.Carries (fun v w => v = w ∧ w < sizeLimit) fits := by
  refine carries_single ?_ fits
  rintro v w ⟨rfl, hv⟩ rest
  rw [List.flatten_singleton]
  exact Decoder.run_varint hv rest

theorem carries_intSingle (kind : IntKind) (fits : Nat → Prop) :
    (intSingle kind).Carries (fun v w => v = w ∧ kind.Holds w) fits := by
  unfold intSingle
  split
  · next hk =>
    refine carries_single ?_ fits
    rintro v w ⟨rfl, hv⟩ rest
    obtain ⟨hsize, hof⟩ := Layout.lays_octet kind hk hv
    have hr := Decoder.run_map_ok (f := (Layout.octet kind.signed).ofImage)
      (Decoder.run_bytes_append ((Layout.octet kind.signed).image v) rest)
    rw [hof, hsize] at hr
    rw [List.flatten_singleton]
    exact hr
  · next hk =>
    refine carries_single ?_ fits
    rintro v w ⟨rfl, hv⟩ rest
    obtain ⟨hnonneg, hlt⟩ := IntKind.holds_varint hk hv
    have hcast : (v.toNat : Int) = v := Int.toNat_of_nonneg hnonneg
    rw [List.flatten_singleton, Decoder.run_bind_ok (Decoder.run_varint hlt rest), hcast,
      if_pos hv, Decoder.run_pure]
  · next hk =>
    refine carries_single ?_ fits
    rintro v w ⟨rfl, hv⟩ rest
    rw [List.flatten_singleton,
      Decoder.run_bind_ok (Decoder.run_zigzag (IntKind.holds_zigzag hk hv) rest), if_pos hv,
      Decoder.run_pure]

theorem intSingle_byte (kind : IntKind) (hk : kind.form = .byte) (v : Int) :
    (Layout.octet kind.signed).image v = (intSingle kind).encode v := by
  unfold intSingle
  rw [hk]
  rfl

theorem carries_int (kind : IntKind) (fits : Nat → Prop) :
    (int kind).Carries (fun v w => v = w ∧ kind.Holds w) fits := by
  unfold int
  split
  · next hk =>
    refine (carries_intSingle kind fits).bulk (intSingle_byte kind hk) ?_ fits
    rintro v w ⟨rfl, hv⟩
    exact ⟨rfl, Layout.lays_octet kind hk hv⟩
  · exact carries_intSingle kind fits

theorem lays_word {width n : Nat} (h : n < wordLimit width) :
    (Layout.word width).Lays n :=
  ⟨length_littleEndian width n, ofLittleEndian_littleEndian width n h⟩

theorem carries_word (width : Nat) (fits : Nat → Prop) :
    (word width).Carries (fun v w => v = w ∧ w < wordLimit width) fits := by
  refine Carries.bulk (carries_single ?_ fits) ?_ ?_ fits
  · rintro v w ⟨rfl, hv⟩ rest
    rw [List.flatten_singleton]
    exact Decoder.run_fixed_littleEndian width v rest hv
  · intro v
    exact (List.flatten_singleton ..).symm
  · rintro v w ⟨rfl, hv⟩
    exact ⟨rfl, lays_word hv⟩

-- ---------------------------------------------------------------------------
-- Texts, booleans and the unit
-- ---------------------------------------------------------------------------

theorem lays_byte (b : UInt8) : Layout.byte.Lays b := ⟨rfl, rfl⟩

theorem block_byte (bytes : Bytes) : Layout.byte.block bytes = bytes := by
  simp [Layout.block, Layout.byte]

theorem run_readText (text : String) (rest : Bytes) :
    (readText (utf8 text).length).run (utf8 text ++ rest) = .ok (text, rest) := by
  have hr := Layout.run_block (fun b (_ : b ∈ utf8 text) => lays_byte b) rest
  rw [block_byte] at hr
  rw [readText, Decoder.run_bind_ok hr, ofUtf8?_utf8]
  rfl

theorem carries_string (fits : Nat → Prop) :
    string.Carries (fun v w => v = w ∧ (utf8 w).length < sizeLimit) fits := by
  refine carries_single ?_ fits
  rintro v w ⟨rfl, hv⟩ rest
  rw [List.flatten_cons, List.flatten_singleton, List.append_assoc,
    Decoder.run_bind_ok (Decoder.run_varint hv _)]
  exact run_readText v rest

theorem carries_bool (fits : Nat → Prop) : bool.Carries (fun v w => v = w) fits := by
  refine carries_single ?_ fits
  rintro v w rfl rest
  rw [List.flatten_singleton, List.singleton_append,
    Decoder.run_bind_ok (Decoder.run_byte_cons _ _)]
  cases v <;> rfl

theorem carries_unit (fits : Nat → Prop) : unit.Carries (fun v w => v = w) fits :=
  carries_single (fun {_ _} _ _ => rfl) fits

end Codec

end TypedStream
