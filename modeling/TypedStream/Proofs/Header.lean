import TypedStream.Header
import TypedStream.Protocol
import TypedStream.Proofs.Input.Buffered
import TypedStream.Proofs.Varint

/-!
# Headers

What is read as a header is the magic bytes, the version, the length of a schema text in any
spelling, and the text, if it is not too long (`Header.runAll_read`). Everything else is cut short
or damaged in one of five ways (`Header.run_read_error`), so a reader's answer is known from the
bytes alone (`Header.read_grammar`).

The header that a writer makes has the shortest length in front of the text, and that is what
`Header.encodedLength` measures. A header with a longer spelling is read too, but not measured
(`Header.encodedLength_shortest`).
-/

namespace TypedStream

open Lossless (Ahead)

namespace Header

def bytes (schema : String) : Bytes := (writes schema).flatten

/-- The format version as it is put down. -/
def versionBytes : Bytes := [1, 0, 0, 0]

theorem bytes_eq (schema : String) :
    bytes schema = magic ++ (versionBytes ++ (varint (utf8 schema).length ++ utf8 schema)) := by
  simp [bytes, writes]
  rfl

/-- A header that a reader takes. The length may be spelled in any way. -/
inductive IsHeader : Bytes → String → Prop
  | intro {schema : String} {spelling : Bytes} (hspelling : IsVarint spelling (utf8 schema).length)
    (hlength : (utf8 schema).length ≤ maxSchemaBytes) :
    IsHeader (magic ++ (versionBytes ++ (spelling ++ utf8 schema))) schema

/-- A header that no bytes behind it can make good, with what is wrong. -/
inductive IsDamaged : Bytes → Malformed → Prop
  | magic {bytes : Bytes} (hlength : magic.length ≤ bytes.length)
    (hmagic : bytes.take magic.length ≠ magic) : IsDamaged bytes .notThisFormat
  | version {version rest : Bytes} (hlength : version.length = 4)
    (hversion : version ≠ versionBytes) :
    IsDamaged (Header.magic ++ (version ++ rest))
      (.formatVersion (ofLittleEndian version) formatVersion)
  | overlong {bytes : Bytes} (h : Overlong 9 bytes) :
    IsDamaged (Header.magic ++ (versionBytes ++ bytes)) .varintTooLong
  | long {spelling rest : Bytes} {length : Nat} (hspelling : IsVarint spelling length)
    (hlength : maxSchemaBytes < length) :
    IsDamaged (Header.magic ++ (versionBytes ++ (spelling ++ rest))) (.schemaTooLong length)
  | text {spelling text rest : Bytes} (hspelling : IsVarint spelling text.length)
    (hlength : text.length ≤ maxSchemaBytes) (htext : ∀ schema, utf8 schema ≠ text) :
    IsDamaged (Header.magic ++ (versionBytes ++ (spelling ++ (text ++ rest)))) .schemaNotUtf8

-- ---------------------------------------------------------------------------
-- One part after the other
-- ---------------------------------------------------------------------------

def readText (version length : Nat) : Decoder Header :=
  Decoder.bytes length >>= fun text =>
    match ofUtf8? text with
    | some schema => pure ⟨version, schema⟩
    | none => Decoder.malformed .schemaNotUtf8

def readSchema (version : Nat) : Decoder Header :=
  Decoder.varint >>= fun length =>
    if maxSchemaBytes < length then Decoder.malformed (.schemaTooLong length)
    else readText version length

def readVersion : Decoder Header :=
  Decoder.fixed 4 >>= fun version =>
    if version ≠ formatVersion then Decoder.malformed (.formatVersion version formatVersion)
    else readSchema version

theorem read_eq : read =
    (Decoder.bytes magic.length >>= fun found =>
      if found ≠ magic then Decoder.malformed .notThisFormat else readVersion) := rfl

theorem ofLittleEndian_version {version : Bytes} (h : version.length = 4) :
    ofLittleEndian version = formatVersion ↔ version = versionBytes := by
  constructor
  · intro heq
    rw [← littleEndian_ofLittleEndian version, h, heq]
    rfl
  · rintro rfl
    rfl

section
variable {input rest : Bytes} {header : Header}

theorem run_read_magic : read.run (magic ++ input) = readVersion.run input := by
  rw [read_eq, Decoder.run_bind_ok (Decoder.run_bytes_append magic input),
    if_neg (not_not_intro rfl)]

theorem run_readVersion {version : Bytes} (h : version.length = 4) :
    readVersion.run (version ++ input) =
      if version = versionBytes then (readSchema formatVersion).run input
      else .error (.format (.formatVersion (ofLittleEndian version) formatVersion)) := by
  have hfixed : (Decoder.fixed 4).run (version ++ input) = .ok (ofLittleEndian version, input) :=
    Decoder.run_eq_ok_iff.mpr ⟨version, rfl, Decoder.runAll_fixed.mpr ⟨rfl, h⟩⟩
  rw [readVersion, Decoder.run_bind_ok hfixed]
  by_cases hversion : version = versionBytes
  · have hn := (ofLittleEndian_version h).mpr hversion
    rw [if_pos hversion, if_neg (not_not_intro hn), hn]
  · rw [if_neg hversion, if_pos (mt (ofLittleEndian_version h).mp hversion)]
    rfl

theorem run_read_preamble :
    read.run (magic ++ (versionBytes ++ input)) = (readSchema formatVersion).run input := by
  rw [run_read_magic, run_readVersion rfl, if_pos rfl]

theorem run_readSchema {spelling : Bytes} {version length : Nat} (h : IsVarint spelling length) :
    (readSchema version).run (spelling ++ input) =
      if maxSchemaBytes < length then .error (.format (.schemaTooLong length))
      else (readText version length).run input := by
  rw [readSchema, Decoder.run_bind_ok (h.run input)]
  split <;> rfl

theorem run_readText (version : Nat) (text : Bytes) :
    (readText version text.length).run (text ++ rest) =
      match ofUtf8? text with
      | some schema => .ok (⟨version, schema⟩, rest)
      | none => .error (.format .schemaNotUtf8) := by
  rw [readText, Decoder.run_bind_ok (Decoder.run_bytes_append text rest)]
  cases ofUtf8? text <;> rfl

-- ---------------------------------------------------------------------------
-- What is read
-- ---------------------------------------------------------------------------

theorem runAll_readText {version length : Nat} :
    (readText version length).runAll input = .ok header ↔
      ∃ schema, input = utf8 schema ∧ input.length = length ∧ header = ⟨version, schema⟩ := by
  rw [readText, Decoder.runAll_bind]
  simp only [Decoder.runAll_bytes]
  constructor
  · rintro ⟨text, _, back, rfl, ⟨rfl, hlength⟩, h⟩
    split at h
    · next schema htext =>
      obtain ⟨hheader, rfl⟩ := Decoder.runAll_pure.mp h
      rw [List.append_nil]
      exact ⟨schema, (utf8_of_ofUtf8? htext).symm, hlength, hheader⟩
    · exact absurd h Decoder.runAll_malformed
  · rintro ⟨schema, rfl, hlength, hheader⟩
    refine ⟨utf8 schema, utf8 schema, [], (List.append_nil _).symm, ⟨rfl, hlength⟩, ?_⟩
    rw [ofUtf8?_utf8]
    exact Decoder.runAll_pure.mpr ⟨hheader, rfl⟩

/-- The headers that a reader takes are those of the grammar. -/
theorem runAll_read : read.runAll input = .ok header ↔
    ∃ schema, IsHeader input schema ∧ header = ofSchema schema := by
  constructor
  · intro h
    rw [read_eq, Decoder.runAll_bind] at h
    obtain ⟨found, _, input, rfl, hfound, h⟩ := h
    obtain ⟨rfl, -⟩ := Decoder.runAll_bytes.mp hfound
    split at h
    · exact absurd h Decoder.runAll_malformed
    next hmagic =>
    obtain rfl := not_not.mp hmagic
    rw [readVersion, Decoder.runAll_bind] at h
    obtain ⟨n, version, input, rfl, hn, h⟩ := h
    obtain ⟨rfl, hversion⟩ := Decoder.runAll_fixed.mp hn
    split at h
    · exact absurd h Decoder.runAll_malformed
    next hformat =>
    obtain rfl := (ofLittleEndian_version hversion).mp (not_not.mp hformat)
    rw [readSchema, Decoder.runAll_bind] at h
    obtain ⟨length, spelling, input, rfl, hspelling, h⟩ := h
    split at h
    · exact absurd h Decoder.runAll_malformed
    next hlength =>
    obtain ⟨schema, rfl, rfl, hheader⟩ := runAll_readText.mp h
    exact ⟨schema, .intro (Decoder.runAll_varint.mp hspelling) (Nat.le_of_not_lt hlength), hheader⟩
  · rintro ⟨schema, ⟨hspelling, hlength⟩, rfl⟩
    have htext := @run_readText [] formatVersion (utf8 schema)
    rw [ofUtf8?_utf8, List.append_nil] at htext
    rw [Decoder.runAll_eq_ok, run_read_preamble, run_readSchema hspelling,
      if_neg (Nat.not_lt.mpr hlength), htext]
    rfl

theorem IsHeader.spelling {schema : String} (h : IsHeader input schema) :
    ∃ spelling, IsVarint spelling (utf8 schema).length ∧
      input = magic ++ (versionBytes ++ (spelling ++ utf8 schema)) := by
  cases h with
  | intro hspelling => exact ⟨_, hspelling, rfl⟩

theorem IsHeader.run_read {schema : String} (h : IsHeader input schema) (rest : Bytes) :
    read.run (input ++ rest) = .ok (ofSchema schema, rest) :=
  Decoder.run_eq_ok_iff.mpr ⟨input, rfl, runAll_read.mpr ⟨schema, h, rfl⟩⟩

/-- What a writer puts down is a header, if a reader believes in the length. -/
theorem isHeader_bytes {schema : String} (h : (utf8 schema).length ≤ maxSchemaBytes) :
    IsHeader (bytes schema) schema := by
  rw [bytes_eq]
  exact .intro (isVarint_varint (Nat.lt_of_le_of_lt h (by decide))) h

theorem run_read {schema : String} (h : (utf8 schema).length ≤ maxSchemaBytes) (rest : Bytes) :
    read.run (bytes schema ++ rest) = .ok (ofSchema schema, rest) :=
  (isHeader_bytes h).run_read rest

-- ---------------------------------------------------------------------------
-- What is refused
-- ---------------------------------------------------------------------------

theorem IsDamaged.run_read {cause : Malformed} (h : IsDamaged input cause) :
    read.run input = .error (.format cause) := by
  cases h with
  | magic hlength hmagic =>
    have hfound := Decoder.run_bytes_append (input.take Header.magic.length)
      (input.drop Header.magic.length)
    rw [List.length_take_of_le hlength, List.take_append_drop] at hfound
    rw [read_eq, Decoder.run_bind_ok hfound, if_pos hmagic]
    rfl
  | version hlength hversion =>
    rw [run_read_magic, run_readVersion hlength, if_neg hversion]
  | overlong h =>
    rw [run_read_preamble, readSchema,
      Decoder.run_bind_error (Decoder.run_varint_error.mpr (.inr ⟨rfl, h⟩))]
  | long hspelling hlength =>
    rw [run_read_preamble, run_readSchema hspelling, if_pos hlength]
  | @text spelling text rest hspelling hlength htext =>
    have hnone : ofUtf8? text = none :=
      Option.eq_none_iff_forall_ne_some.mpr fun schema h => htext schema (utf8_of_ofUtf8? h)
    rw [run_read_preamble, run_readSchema hspelling, if_neg (Nat.not_lt.mpr hlength), run_readText,
      hnone]

/-- Behind the magic and the version, a header fails in its length or in its text. -/
theorem run_readSchema_error {version : Nat} {error : Error}
    (h : (readSchema version).run input = .error error) :
    error = .endOfStream ∨
      ∃ cause, error = .format cause ∧ IsDamaged (magic ++ (versionBytes ++ input)) cause := by
  rw [readSchema, Decoder.run_bind_fails] at h
  obtain h | ⟨length, rest, hvarint, h⟩ := h
  · obtain ⟨rfl, -⟩ | ⟨rfl, hoverlong⟩ := Decoder.run_varint_error.mp h
    · exact .inl rfl
    · exact .inr ⟨_, rfl, .overlong hoverlong⟩
  obtain ⟨spelling, rfl, hspelling⟩ := Decoder.run_eq_ok_iff.mp hvarint
  have hspelling := Decoder.runAll_varint.mp hspelling
  split at h
  · next hlong =>
    cases h
    exact .inr ⟨_, rfl, .long hspelling hlong⟩
  next hlength =>
  rw [readText, Decoder.run_bind_fails] at h
  obtain h | ⟨text, rest, htext, h⟩ := h
  · exact .inl (Decoder.run_bytes_error h)
  obtain ⟨rfl, rfl⟩ := Decoder.run_bytes_ok htext
  split at h
  · cases h
  · next hnone =>
    cases h
    refine .inr ⟨_, rfl, .text hspelling (Nat.le_of_not_lt hlength) fun schema heq => ?_⟩
    rw [← heq, ofUtf8?_utf8] at hnone
    cases hnone

/-- A reader fails where the header is cut short or damaged, and nowhere else. -/
theorem run_read_error {error : Error} (h : read.run input = .error error) :
    error = .endOfStream ∨ ∃ cause, error = .format cause ∧ IsDamaged input cause := by
  rw [read_eq, Decoder.run_bind_fails] at h
  obtain h | ⟨found, rest, hfound, h⟩ := h
  · exact .inl (Decoder.run_bytes_error h)
  obtain ⟨hlength, rfl⟩ := Decoder.run_bytes_ok hfound
  split at h
  · next hmagic =>
    cases h
    refine .inr ⟨_, rfl, .magic ?_ ?_⟩
    · rw [List.length_append]
      omega
    · rwa [List.take_left' hlength]
  next hmagic =>
  obtain rfl := not_not.mp hmagic
  rw [readVersion, Decoder.run_bind_fails] at h
  obtain h | ⟨n, rest, hn, h⟩ := h
  · rw [Decoder.run_fixed_eq] at h
    split at h
    · cases h
    · exact .inl (Except.error.inj h).symm
  obtain ⟨version, rfl, hfixed⟩ := Decoder.run_eq_ok_iff.mp hn
  obtain ⟨rfl, hversion⟩ := Decoder.runAll_fixed.mp hfixed
  split at h
  · next hformat =>
    cases h
    exact .inr ⟨_, rfl, .version hversion (mt (ofLittleEndian_version hversion).mpr hformat)⟩
  · next hformat =>
    obtain rfl := (ofLittleEndian_version hversion).mp (not_not.mp hformat)
    exact run_readSchema_error h

/-- A header that is cut short is found to be cut short, whatever its schema. -/
theorem IsHeader.run_cut {whole : Bytes} {schema : String} (h : IsHeader whole schema)
    (hfront : input <+: whole) (hne : input ≠ whole) : read.run input = .error .endOfStream := by
  obtain ⟨missing, rfl⟩ := hfront
  have hmissing : 0 < missing.length := by
    rw [List.length_pos_iff]
    rintro rfl
    exact hne (List.append_nil input).symm
  have hlength : input.length < (input ++ missing).length := by
    rw [List.length_append]
    omega
  have hcut := Decoder.run_take_front (h.run_read []) hlength
  rwa [List.take_left' rfl] at hcut

end

-- ---------------------------------------------------------------------------
-- Reading from an input
-- ---------------------------------------------------------------------------

section
variable {input : InputStream} {pos : Nat} {bytes : Bytes}

theorem exec_isHeader {input' : InputStream} {header : Header} (ha : Ahead input pos bytes)
    (h : read.exec input = .ok header input') :
    ∃ front rest, bytes = front ++ rest ∧ IsHeader front header.schema ∧
      header = ofSchema header.schema ∧ Ahead input' (pos + front.length) rest := by
  obtain ⟨front, rest, rfl, hfront, hahead⟩ := runAll_of_exec ha h
  obtain ⟨schema, hheader, rfl⟩ := runAll_read.mp hfront
  exact ⟨front, rest, rfl, hheader, rfl, hahead⟩

/-- A header is read if the bytes ahead start with one, and then exactly its bytes are taken up. The
front of a header is found to be cut short, and a damaged one to be malformed. A reader has no other
answer. -/
theorem read_grammar (ha : Ahead input pos bytes) :
    (∀ front rest schema, bytes = front ++ rest → IsHeader front schema →
      ∃ input', read.exec input = .ok (ofSchema schema) input' ∧
        Ahead input' (pos + front.length) rest) ∧
    (∀ header input', read.exec input = .ok header input' →
      ∃ front rest, bytes = front ++ rest ∧ IsHeader front header.schema ∧
        header = ofSchema header.schema ∧ Ahead input' (pos + front.length) rest) ∧
    (∀ whole schema, IsHeader whole schema → bytes <+: whole → bytes ≠ whole →
      ∃ input', read.exec input = .error .endOfStream input') ∧
    (∀ cause, IsDamaged bytes cause →
      ∃ input', read.exec input = .error (.format cause) input') ∧
    (∀ error input', read.exec input = .error error input' →
      error = .endOfStream ∨ ∃ cause, error = .format cause ∧ IsDamaged bytes cause) := by
  refine ⟨?taken, ?accepted, ?cut, ?damaged, ?refused⟩
  case taken =>
    rintro front rest schema rfl hheader
    exact exec_front ha (hheader.run_read rest)
  case accepted =>
    intro header input' h
    exact exec_isHeader ha h
  case cut =>
    intro whole schema hheader hfront hne
    exact exec_of_run_error ha (hheader.run_cut hfront hne)
  case damaged =>
    intro cause hdamaged
    exact exec_of_run_error ha hdamaged.run_read
  case refused =>
    intro error input' h
    exact run_read_error (run_of_exec_error ha h)

/-- The length of the text, spelled in two bytes. A reader takes it, asks for a text that is
missing, and refuses one that is none. -/
theorem read_grammar_surplus :
    let input (text : Bytes) : InputStream :=
      .open (.ofBytes (magic ++ (versionBytes ++ ([0x81, 0] ++ text)))) 4 0
    (∃ input', read.exec (input [0x41, 7]) = .ok (ofSchema "A") input' ∧ input'.pos = 12) ∧
    (∃ input', read.exec (input []) = .error .endOfStream input') ∧
    (∃ input', read.exec (input [0xff]) = .error (.format .schemaNotUtf8) input') := by
  have hvarint : IsVarint [0x81, 0] 1 := Decoder.runAll_varint.mp rfl
  have hheader : IsHeader (magic ++ (versionBytes ++ ([0x81, 0] ++ [0x41]))) "A" :=
    @IsHeader.intro "A" _ hvarint (by decide)
  have hnoText : ∀ schema, utf8 schema ≠ [0xff] := by
    intro schema h
    have hsome := ofUtf8?_utf8 schema
    rw [h, show ofUtf8? [0xff] = none from rfl] at hsome
    cases hsome
  refine ⟨?_, ?_, ?_⟩
  · obtain ⟨input', h, ha⟩ :=
      (read_grammar (InputStream.ahead_ofBytes _ 4 0)).1 _ [7] "A" rfl hheader
    exact ⟨input', h, ha.2.1⟩
  · exact (read_grammar (InputStream.ahead_ofBytes _ 4 0)).2.2.1 _ "A" hheader ⟨[0x41], rfl⟩
      (by decide)
  · exact (read_grammar (InputStream.ahead_ofBytes _ 4 0)).2.2.2.1 _
      (@IsDamaged.text [0x81, 0] [0xff] [] hvarint (by decide) hnoText)

-- ---------------------------------------------------------------------------
-- What a header measures
-- ---------------------------------------------------------------------------

theorem encodedLength_eq (header : Header) :
    header.encodedLength = (Header.bytes header.schema).length := by
  rw [encodedLength, bytes_eq, ← length_varint]
  simp only [List.length_append, versionBytes, List.length_cons, List.length_nil]
  omega

/-- A header measures what a writer puts down for its schema. This is what has been read if the
length of the schema was spelled as a writer spells it. If not, what the spelling has beyond that is
not measured. -/
theorem encodedLength_shortest {input' : InputStream} {header : Header} (ha : Ahead input pos bytes)
    (h : read.exec input = .ok header input') :
    header.encodedLength = (Header.bytes header.schema).length ∧
    ∃ spelling rest,
      bytes = magic ++ (versionBytes ++ (spelling ++ (utf8 header.schema ++ rest))) ∧
      IsVarint spelling (utf8 header.schema).length ∧
      input'.pos + (varint (utf8 header.schema).length).length =
        pos + header.encodedLength + spelling.length ∧
      pos + header.encodedLength ≤ input'.pos ∧
      (input'.pos = pos + header.encodedLength ↔
        spelling = varint (utf8 header.schema).length) := by
  obtain ⟨front, rest, rfl, hheader, -, hahead⟩ := exec_isHeader ha h
  obtain ⟨spelling, hspelling, rfl⟩ := hheader.spelling
  have hmeasured := header.encodedLength_eq
  have hpos : input'.pos = _ := hahead.2.1
  obtain ⟨hshort, hunique⟩ := hspelling.spells.varint_shortest
  rw [bytes_eq] at hmeasured
  simp only [List.length_append] at hmeasured hpos
  refine ⟨header.encodedLength_eq, spelling, rest, ?_, hspelling, ?_, ?_, ?_⟩
  · simp only [List.append_assoc]
  · omega
  · omega
  · constructor
    · intro hsame
      exact (hunique (by omega)).symm
    · rintro rfl
      omega

theorem encodedLength_shortest_letter :
    ∃ input', read.exec (InputStream.open (.ofBytes (Header.bytes "A")) 4 0) =
        .ok (ofSchema "A") input' ∧
      (ofSchema "A").encodedLength = (Header.bytes "A").length ∧
      (ofSchema "A").encodedLength ≤ input'.pos := by
  have ha := InputStream.ahead_ofBytes (Header.bytes "A") 4 0
  rw [← List.append_nil (Header.bytes "A")] at ha
  obtain ⟨input', h, -⟩ := exec_front ha (run_read (by decide) [])
  obtain ⟨hmeasured, _, _, -, -, -, hle, -⟩ := encodedLength_shortest ha h
  rw [List.append_nil] at h
  exact ⟨input', h, hmeasured, by omega⟩

/-- The length of an empty text, spelled in two bytes. -/
theorem encodedLength_surplus :
    ∃ input', read.exec
        (InputStream.open (.ofBytes (magic ++ (versionBytes ++ [0x80, 0]))) 4 0) =
        .ok (ofSchema "") input' ∧
      (ofSchema "").encodedLength = 10 ∧ input'.pos = 11 := by
  have hheader : IsHeader (magic ++ (versionBytes ++ ([0x80, 0] ++ []))) "" :=
    @IsHeader.intro "" _ (Decoder.runAll_varint.mp rfl) (by decide)
  obtain ⟨input', h, ha⟩ :=
    exec_front (InputStream.ahead_ofBytes _ 4 0) (hheader.run_read [])
  refine ⟨input', h, ?_, ha.2.1⟩
  rw [encodedLength_eq, bytes_eq, show utf8 (ofSchema "").schema = [] from rfl, List.length_nil,
    varint_zero]
  rfl

end

end Header

/-- A protocol recognizes its own schema text. -/
theorem Protocol.versionOf_schema (p : Protocol) :
    ∃ version, p.versionOf p.schema = .ok version := by
  unfold versionOf
  split
  · exact ⟨_, rfl⟩
  · rw [if_pos rfl]
    exact ⟨_, rfl⟩

end TypedStream
