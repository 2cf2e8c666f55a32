/-!
# Bytes

Byte strings, fixed-width little-endian integers, UTF-8 text, and `ByteLog`, the append-only byte
string that sinks and output buffers are made of.
-/

namespace TypedStream

abbrev Bytes := List UInt8

/-- The low `width` bytes of a number, least significant first. -/
def littleEndian : (width : Nat) → Nat → Bytes
  | 0, _ => []
  | width + 1, n => UInt8.ofNat (n % 256) :: littleEndian width (n / 256)

def ofLittleEndian : Bytes → Nat
  | [] => 0
  | b :: rest => b.toNat + 256 * ofLittleEndian rest

@[simp] theorem length_littleEndian (width n : Nat) : (littleEndian width n).length = width := by
  induction width generalizing n with
  | zero => rfl
  | succ width ih => simp [littleEndian, ih]

/-- Numbers of `width` bytes are below this bound. -/
def wordLimit : (width : Nat) → Nat
  | 0 => 1
  | width + 1 => 256 * wordLimit width

theorem ofLittleEndian_littleEndian (width n : Nat) (h : n < wordLimit width) :
    ofLittleEndian (littleEndian width n) = n := by
  induction width generalizing n with
  | zero =>
    have : n = 0 := by simpa [wordLimit] using h
    simp [littleEndian, ofLittleEndian, this]
  | succ width ih =>
    have hd : n / 256 < wordLimit width := by
      simp only [wordLimit] at h
      omega
    simp only [littleEndian, ofLittleEndian, ih _ hd]
    simp
    omega

theorem littleEndian_ofLittleEndian (bytes : Bytes) :
    littleEndian bytes.length (ofLittleEndian bytes) = bytes := by
  induction bytes with
  | nil => rfl
  | cons b rest ih =>
    have hb := b.toNat_lt
    have hlow : (b.toNat + 256 * ofLittleEndian rest) % 256 = b.toNat := by omega
    have hhigh : (b.toNat + 256 * ofLittleEndian rest) / 256 = ofLittleEndian rest := by omega
    rw [List.length_cons, ofLittleEndian, littleEndian, hlow, hhigh, ih, UInt8.ofNat_toNat]

def utf8 (text : String) : Bytes := text.toByteArray.data.toList

def ofUtf8? (bytes : Bytes) : Option String := String.fromUTF8? ⟨bytes.toArray⟩

theorem ofUtf8?_utf8 (text : String) : ofUtf8? (utf8 text) = some text := by
  unfold ofUtf8? utf8 String.fromUTF8?
  simp [String.fromUTF8]
  exact text.isValidUTF8

theorem utf8_of_ofUtf8? {bytes : Bytes} {text : String} (h : ofUtf8? bytes = some text) :
    utf8 text = bytes := by
  unfold ofUtf8? String.fromUTF8? at h
  split at h
  · rw [← Option.some.inj h]
    rfl
  · cases h

/-- A byte string that grows at its end. The newest byte comes first and the length is kept, so
that appending and measuring cost no more than the new bytes. -/
structure ByteLog where
  newestFirst : Bytes
  size : Nat
  size_eq : size = newestFirst.length

namespace ByteLog

def empty : ByteLog := ⟨[], 0, rfl⟩

def toList (log : ByteLog) : Bytes := log.newestFirst.reverse

def append (log : ByteLog) (bytes : Bytes) : ByteLog where
  newestFirst := bytes.reverseAux log.newestFirst
  size := bytes.length + log.size
  size_eq := by simp [List.reverseAux_eq, log.size_eq]

def ofList (bytes : Bytes) : ByteLog := empty.append bytes

@[simp] theorem toList_empty : empty.toList = [] := rfl

@[simp] theorem toList_append (log : ByteLog) (bytes : Bytes) :
    (log.append bytes).toList = log.toList ++ bytes := by
  simp [append, toList, List.reverseAux_eq]

@[simp] theorem toList_ofList (bytes : Bytes) : (ofList bytes).toList = bytes := by
  simp [ofList]

theorem size_eq_length (log : ByteLog) : log.size = log.toList.length := by
  simp [toList, log.size_eq]

end ByteLog

end TypedStream
