import TypedStream.Proofs.Reading
import TypedStream.Proofs.SensorLog.Data

/-!
# Decoding data of version 0

The decoders for version 0 take up exactly the bytes of a record of version 0 and make of it the
current record. At an obsolete reading they stop with a conversion error.
-/

namespace TypedStream.SensorLog

-- ---------------------------------------------------------------------------
-- Headers
-- ---------------------------------------------------------------------------

theorem upgradeHeader_toValue (header : HeaderV0) :
    upgradeHeader header.toValue = header.upgrade.toValue := by
  simp [upgradeHeader, HeaderV0.toValue, HeaderV0.upgrade, Header.toValue, noteValue]

theorem run_readHeaderV0 (header : HeaderV0) (rest : Bytes) :
    readHeaderV0.run (header.datum.bytes ++ rest) = .ok (header.upgrade.toValue, rest) := by
  rw [← upgradeHeader_toValue]
  exact Decoder.run_map_ok (header.datum.read_run rest)

-- ---------------------------------------------------------------------------
-- Samples
-- ---------------------------------------------------------------------------

/-- What a reading of version 0 puts down behind the number of its alternative. -/
def ReadingV0.payload : ReadingV0 → Bytes
  | label text => Ty.string.codec.encode text.toValue
  | scalar bits => (Ty.float .double).codec.encode (.float bits.toNat)
  | counts numbers => (Ty.list (.int .u32)).codec.encode numbers.toValue
  | obsolete byte => (Ty.int .u8).codec.encode (.int byte.toNat)

def ReadingV0.index : ReadingV0 → Nat
  | label _ => 0
  | scalar _ => 1
  | counts _ => 2
  | obsolete _ => 3

theorem ReadingV0.encode_eq (reading : ReadingV0) :
    readingV0.codec.encode reading.toValue = varint reading.index ++ reading.payload := by
  cases reading <;> exact congrArg (varint _ ++ ·) (Codec.encode_single _ _)

theorem SampleV0.bytes_eq (sample : SampleV0) :
    sample.datum.bytes = (Ty.int .u64).codec.encode (.int sample.timestamp.toNat) ++
      (varint sample.reading.index ++ (sample.reading.payload ++
        (Codec.int .u32).encode sample.channel.toNat)) := by
  have hfields : sample.datum.bytes =
      (Codec.cons (Ty.int .u64).codec
        (.cons readingV0.codec (.cons (Ty.int .u32).codec .nil))).encode
        [.int sample.timestamp.toNat, sample.reading.toValue, .int sample.channel.toNat] := rfl
  rw [hfields, Codec.encode_cons, Codec.encode_cons, Codec.encode_single, ReadingV0.encode_eq,
    List.append_assoc]
  rfl

theorem run_readIndex_remap (old : ReadingV0) (rest : Bytes) :
    (Codec.readIndex readingRemap.alternatives).run (varint old.index ++ rest) =
      .ok (old.index, rest) := by
  have hindex : old.index < 4 := by cases old <;> simp [ReadingV0.index]
  exact Codec.run_readIndex hindex (Nat.lt_trans hindex (by decide)) rest

theorem run_readReadingV0 {old : ReadingV0} {new : Reading} (h : old.upgrade? = some new)
    (rest : Bytes) :
    readReadingV0.run (varint old.index ++ (old.payload ++ rest)) = .ok (new.toValue, rest) := by
  rw [readReadingV0, Decoder.run_bind_ok (run_readIndex_remap old _)]
  cases old with
  | label text =>
    cases h
    exact Decoder.run_bind_ok (Ty.string.carries_codec.read text.lists rest)
  | scalar bits =>
    cases h
    exact Decoder.run_bind_ok ((Ty.float .double).carries_codec.read (lists_double bits) rest)
  | counts numbers =>
    cases h
    exact Decoder.run_bind_ok ((Ty.list (.int .u32)).carries_codec.read numbers.lists rest)
  | obsolete byte => cases h

theorem run_readReadingV0_obsolete {old : ReadingV0} (h : old.upgrade? = none) (rest : Bytes) :
    readReadingV0.run (varint old.index ++ (old.payload ++ rest)) =
      .error (.conversion (.alternativeGone 3)) := by
  cases old with
  | obsolete byte =>
    rw [readReadingV0, Decoder.run_bind_ok (run_readIndex_remap _ _)]
    rfl
  | label | scalar | counts => cases h

theorem run_readSampleV0 {old : SampleV0} {new : Sample} (h : old.upgrade? = some new)
    (rest : Bytes) :
    readSampleV0.run (old.datum.bytes ++ rest) = .ok (new.toValue, rest) := by
  obtain ⟨reading, hreading, rfl⟩ := Option.map_eq_some_iff.mp h
  have htime := (Ty.int .u64).carries_codec.read
    ⟨(old.timestamp.toNat : Int), holds_u64 old.timestamp, rfl, rfl⟩
  have hchannel := (Codec.carries_int .u32 fun _ => True).read
    ⟨(rfl : (old.channel.toNat : Int) = _), holds_u32 old.channel⟩ rest
  have hformat : (Legacy.formatted .u32).run ((Codec.int .u32).encode old.channel.toNat ++ rest) =
      .ok (.string (toString old.channel.toNat), rest) := Decoder.run_bind_ok hchannel
  rw [SampleV0.bytes_eq, List.append_assoc, List.append_assoc, List.append_assoc, readSampleV0,
    Decoder.run_bind_ok (htime _), Decoder.run_bind_ok (run_readReadingV0 hreading _),
    Decoder.run_bind_ok hformat]
  rfl

theorem run_readSampleV0_obsolete {old : SampleV0} (h : old.upgrade? = none) (rest : Bytes) :
    readSampleV0.run (old.datum.bytes ++ rest) = .error (.conversion (.alternativeGone 3)) := by
  have hreading : old.reading.upgrade? = none := by simpa [SampleV0.upgrade?] using h
  have htime := (Ty.int .u64).carries_codec.read
    ⟨(old.timestamp.toNat : Int), holds_u64 old.timestamp, rfl, rfl⟩
  rw [SampleV0.bytes_eq, List.append_assoc, List.append_assoc, List.append_assoc, readSampleV0,
    Decoder.run_bind_ok (htime _)]
  exact Decoder.run_bind_error (run_readReadingV0_obsolete hreading _)

end TypedStream.SensorLog
