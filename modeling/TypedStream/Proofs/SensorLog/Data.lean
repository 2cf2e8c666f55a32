import TypedStream.Proofs.Script
import TypedStream.SensorLog

/-!
# The data of sensor logs

The records of the sensor log protocol with their fields, for both versions, and how data of
version 0 becomes current data. Floats are their bits.
-/

namespace TypedStream.SensorLog

-- ---------------------------------------------------------------------------
-- Fields
-- ---------------------------------------------------------------------------

/-- A text whose length is a word. -/
def Text : Type := { text : String // (utf8 text).length < sizeLimit }

def Text.toValue (text : Text) : Value := .string text.val

/-- Numbers, as many as a word can count. -/
def Counts : Type := { counts : List UInt32 // counts.length < sizeLimit }

def Counts.toValue (counts : Counts) : Value := .list (counts.val.map fun n => .int n.toNat)

inductive Units where
  | raw
  | millivolts
  | volts
  deriving DecidableEq, Repr

def Units.toValue : Units → Value
  | raw => .variant 0 []
  | millivolts => .variant 1 []
  | volts => .variant 2 []

/-- Two rows of two floats. -/
abbrev Matrix := Vector (Vector UInt32 2) 2

def Matrix.toValue (matrix : Matrix) : Value :=
  .list (matrix.toList.map fun row => .list (row.toList.map fun bits => .float bits.toNat))

def noteValue : Option Text → Value
  | none => .absent
  | some text => .present text.toValue

-- ---------------------------------------------------------------------------
-- Version 0
-- ---------------------------------------------------------------------------

structure HeaderV0 where
  subject : Text
  gain : Int8
  units : Units
  matrix : Matrix

inductive ReadingV0 where
  | label (text : Text)
  | scalar (bits : UInt64)
  | counts (numbers : Counts)
  | obsolete (byte : UInt8)

structure SampleV0 where
  timestamp : UInt64
  reading : ReadingV0
  channel : UInt32

def HeaderV0.toValue (header : HeaderV0) : Value :=
  .record [header.subject.toValue, .int header.gain.toInt, header.units.toValue,
    header.matrix.toValue]

def ReadingV0.toValue : ReadingV0 → Value
  | label text => .variant 0 [text.toValue]
  | scalar bits => .variant 1 [.float bits.toNat]
  | counts numbers => .variant 2 [numbers.toValue]
  | obsolete byte => .variant 3 [.int byte.toNat]

def SampleV0.toValue (sample : SampleV0) : Value :=
  .record [.int sample.timestamp.toNat, sample.reading.toValue, .int sample.channel.toNat]

-- ---------------------------------------------------------------------------
-- The current version
-- ---------------------------------------------------------------------------

structure Header where
  subject : Text
  gain : Int32
  units : Units
  matrix : Matrix
  note : Option Text

inductive Reading where
  | missing
  | scalar (bits : UInt64)
  | counts (numbers : Counts)
  | label (text : Text)

structure Sample where
  timestamp : UInt64
  reading : Reading
  channel : String

def Header.toValue (header : Header) : Value :=
  .record [header.subject.toValue, .int header.gain.toInt, header.units.toValue,
    header.matrix.toValue, noteValue header.note]

def Reading.toValue : Reading → Value
  | missing => .variant 0 []
  | scalar bits => .variant 1 [.float bits.toNat]
  | counts numbers => .variant 2 [numbers.toValue]
  | label text => .variant 3 [text.toValue]

def Sample.toValue (sample : Sample) : Value :=
  .record [.int sample.timestamp.toNat, sample.reading.toValue, .string sample.channel]

-- ---------------------------------------------------------------------------
-- From version 0 to the current one
-- ---------------------------------------------------------------------------

/-- The gain keeps its value in more bits, and there is no note. -/
def HeaderV0.upgrade (header : HeaderV0) : Header where
  subject := header.subject
  gain := header.gain.toInt32
  units := header.units
  matrix := header.matrix
  note := none

/-- Obsolete readings have become nothing. -/
def ReadingV0.upgrade? : ReadingV0 → Option Reading
  | label text => some (.label text)
  | scalar bits => some (.scalar bits)
  | counts numbers => some (.counts numbers)
  | obsolete _ => none

def ReadingV0.Obsolete (reading : ReadingV0) : Prop := ∃ byte, reading = obsolete byte

theorem ReadingV0.upgrade?_eq_none {reading : ReadingV0} :
    reading.upgrade? = none ↔ reading.Obsolete := by
  cases reading <;> simp [upgrade?, Obsolete]

/-- The channel is the number's decimal text. -/
def SampleV0.upgrade? (sample : SampleV0) : Option Sample :=
  sample.reading.upgrade?.map fun reading =>
    { timestamp := sample.timestamp, reading, channel := toString sample.channel.toNat }

theorem SampleV0.upgrade?_eq_none {sample : SampleV0} :
    sample.upgrade? = none ↔ sample.reading.Obsolete := by
  rw [upgrade?, Option.map_eq_none_iff, ReadingV0.upgrade?_eq_none]

-- ---------------------------------------------------------------------------
-- Data as it is written
-- ---------------------------------------------------------------------------

theorem holds_u8 (n : UInt8) : IntKind.u8.Holds n.toNat := by
  have := n.toNat_lt
  constructor <;> simp [IntKind.lo, IntKind.hi, IntKind.signed, IntKind.count]; omega

theorem holds_u32 (n : UInt32) : IntKind.u32.Holds n.toNat := by
  have := n.toNat_lt
  constructor <;> simp [IntKind.lo, IntKind.hi, IntKind.signed, IntKind.count]; omega

theorem holds_u64 (n : UInt64) : IntKind.u64.Holds n.toNat := by
  have := n.toNat_lt
  constructor <;> simp [IntKind.lo, IntKind.hi, IntKind.signed, IntKind.count, sizeLimit]; omega

theorem holds_i8 (n : Int8) : IntKind.i8.Holds n.toInt := by
  have := n.le_toInt
  have := n.toInt_lt
  constructor <;> simp [IntKind.lo, IntKind.hi, IntKind.signed, IntKind.count] <;> omega

theorem holds_i64 (n : Int64) : IntKind.i64.Holds n.toInt := by
  have := n.le_toInt
  have := n.toInt_lt
  constructor <;> simp [IntKind.lo, IntKind.hi, IntKind.signed, IntKind.count, sizeLimit] <;> omega

theorem Text.lists (text : Text) : Ty.string.Lists text.toValue text.toValue :=
  ⟨text.val, text.property, rfl, rfl⟩

theorem Counts.lists (counts : Counts) :
    (Ty.list (.int .u32)).Lists counts.toValue counts.toValue := by
  refine ⟨_, _, List.forall₂_same.mpr ?_, by simpa using counts.property, trivial, rfl, rfl⟩
  simp only [List.mem_map]
  rintro _ ⟨n, -, rfl⟩
  exact ⟨_, holds_u32 n, rfl, rfl⟩

theorem Units.lists (value : Units) : units.Lists value.toValue value.toValue := by
  cases value with
  | raw => exact ⟨0, -1, rfl, by decide, rfl, rfl⟩
  | millivolts => exact ⟨1, 1, rfl, by decide, rfl, rfl⟩
  | volts => exact ⟨2, 2, rfl, by decide, rfl, rfl⟩

theorem lists_float (bits : UInt32) :
    (Ty.float .single).Lists (.float bits.toNat) (.float bits.toNat) :=
  ⟨bits.toNat, bits.toNat_lt, rfl, rfl⟩

theorem lists_double (bits : UInt64) :
    (Ty.float .double).Lists (.float bits.toNat) (.float bits.toNat) :=
  ⟨bits.toNat, bits.toNat_lt, rfl, rfl⟩

theorem Matrix.lists (value : Matrix) : matrix.Lists value.toValue value.toValue := by
  refine ⟨_, _, List.forall₂_same.mpr ?_, by simp, by decide, ⟨by decide, trivial⟩, rfl, rfl⟩
  simp only [List.mem_map]
  rintro _ ⟨row, -, rfl⟩
  refine ⟨_, _, List.forall₂_same.mpr ?_, by simp, by decide, trivial, rfl, rfl⟩
  simp only [List.mem_map]
  rintro _ ⟨bits, -, rfl⟩
  exact lists_float bits

theorem lists_footer (text : Option Text) : footer.Lists (noteValue text) (noteValue text) := by
  cases text with
  | none => exact .inl ⟨rfl, rfl⟩
  | some text => exact .inr ⟨_, _, text.lists, rfl, rfl⟩

theorem HeaderV0.lists (header : HeaderV0) :
    headerV0.Lists header.toValue header.toValue :=
  ⟨[_, _, _, _], [_, _, _, _], ⟨header.subject.lists, ⟨_, holds_i8 header.gain, rfl, rfl⟩,
    header.units.lists, header.matrix.lists, rfl, rfl⟩, rfl, rfl⟩

theorem ReadingV0.lists (reading : ReadingV0) :
    readingV0.Lists reading.toValue reading.toValue := by
  cases reading with
  | label text => exact ⟨0, [_], [_], by decide, ⟨text.lists, rfl, rfl⟩, rfl, rfl⟩
  | scalar bits => exact ⟨1, [_], [_], by decide, ⟨lists_double bits, rfl, rfl⟩, rfl, rfl⟩
  | counts numbers => exact ⟨2, [_], [_], by decide, ⟨numbers.lists, rfl, rfl⟩, rfl, rfl⟩
  | obsolete byte =>
    exact ⟨3, [_], [_], by decide, ⟨⟨_, holds_u8 byte, rfl, rfl⟩, rfl, rfl⟩, rfl, rfl⟩

theorem SampleV0.lists (sample : SampleV0) :
    sampleV0.Lists sample.toValue sample.toValue :=
  ⟨[_, _, _], [_, _, _], ⟨⟨_, holds_u64 sample.timestamp, rfl, rfl⟩, sample.reading.lists,
    ⟨_, holds_u32 sample.channel, rfl, rfl⟩, rfl, rfl⟩, rfl, rfl⟩

def HeaderV0.datum (header : HeaderV0) : Datum headerV0 := ⟨_, _, header.lists⟩

def SampleV0.datum (sample : SampleV0) : Datum sampleV0 := ⟨_, _, sample.lists⟩

def idDatum (id : Int64) : Datum identifier :=
  ⟨.int id.toInt, .int id.toInt, _, holds_i64 id, rfl, rfl⟩

def footerDatum (text : Option Text) : Datum footer := ⟨_, _, lists_footer text⟩

end TypedStream.SensorLog
