import Mathlib.Data.List.Flatten
import TypedStream.Proofs.Codec.Compound
import TypedStream.Proofs.Codec.Runs

/-!
# Normal forms

A reader takes more byte strings than a writer makes: counts, indices and integers in longer
spellings, and the entries of a map in any order and more than once. What has been read can be
written again, and this is the normal form of what was read: it reads as the same value, and it is
no longer (`Codec.Normalizes`). Maps apart, nothing changes but the spelling of numbers
(`Respells`).
-/

namespace TypedStream

-- ---------------------------------------------------------------------------
-- Shorter spellings
-- ---------------------------------------------------------------------------

/-- The same bytes, but where numbers are spelled too long they are put down as a writer does. -/
inductive Respells : Bytes → Bytes → Prop
  | refl (bytes : Bytes) : Respells bytes bytes
  | varint {spelling : Bytes} {n : Nat} (h : IsVarint spelling n) : Respells (varint n) spelling
  | append {short short' bytes bytes' : Bytes} (h : Respells short bytes)
    (h' : Respells short' bytes') : Respells (short ++ short') (bytes ++ bytes')

theorem Respells.shortest {short bytes : Bytes} (h : Respells short bytes) :
    short.length ≤ bytes.length ∧ (short.length = bytes.length → short = bytes) := by
  induction h with
  | refl bytes => exact ⟨Nat.le_refl _, fun _ => rfl⟩
  | varint h => exact h.spells.varint_shortest
  | append _ _ ih ih' =>
    rw [List.length_append, List.length_append]
    refine ⟨Nat.add_le_add ih.1 ih'.1, fun heq => ?_⟩
    have hle := ih.1
    have hle' := ih'.1
    rw [ih.2 (by omega), ih'.2 (by omega)]

/-- No longer than these bytes and, where the order of things is fixed (`strict`), the same but for
the spelling of numbers. -/
structure Shortens (strict : Prop) (short bytes : Bytes) : Prop where
  length_le : short.length ≤ bytes.length
  respells : strict → Respells short bytes

section
variable {strict : Prop}

theorem Respells.shortens {short bytes : Bytes} (h : Respells short bytes) :
    Shortens strict short bytes := ⟨h.shortest.1, fun _ => h⟩

theorem Shortens.refl (bytes : Bytes) : Shortens strict bytes bytes :=
  (Respells.refl bytes).shortens

theorem Shortens.append {short short' bytes bytes' : Bytes} (h : Shortens strict short bytes)
    (h' : Shortens strict short' bytes') : Shortens strict (short ++ short') (bytes ++ bytes') := by
  refine ⟨?_, fun hstrict => .append (h.respells hstrict) (h'.respells hstrict)⟩
  rw [List.length_append, List.length_append]
  exact Nat.add_le_add h.length_le h'.length_le

end

-- ---------------------------------------------------------------------------
-- Decoders
-- ---------------------------------------------------------------------------

namespace Decoder

/-- Whatever the decoder reads, it reads from the encoding too, which is no longer. -/
def Normalizes (strict : Prop) (decoder : Decoder α) (encode : α → Bytes) : Prop :=
  ∀ bytes value, decoder.runAll bytes = .ok value →
    decoder.runAll (encode value) = .ok value ∧ Shortens strict (encode value) bytes

section
variable {strict : Prop}

theorem normalizes_malformed (cause : Malformed) (encode : α → Bytes) :
    (malformed cause).Normalizes strict encode :=
  fun _ _ h => absurd h runAll_malformed

theorem normalizes_pure {value : α} {encode : α → Bytes} (h : encode value = []) :
    (pure value : Decoder α).Normalizes strict encode := by
  intro bytes found hrun
  obtain ⟨rfl, rfl⟩ := runAll_pure.mp hrun
  rw [h]
  exact ⟨hrun, .refl _⟩

/-- What is read second may use what was read first, if that shows in the value. -/
theorem Normalizes.bind {decoder : Decoder α} {f : α → Decoder β} {encode : α → Bytes}
    {encode' : β → Bytes} (h : decoder.Normalizes strict encode)
    (hf : ∀ first bytes value, (f first).runAll bytes = .ok value →
      ∃ back, encode' value = encode first ++ back ∧ (f first).runAll back = .ok value ∧
        Shortens strict back bytes) : (decoder >>= f).Normalizes strict encode' := by
  intro bytes value hrun
  obtain ⟨first, front, back, rfl, hfirst, hrest⟩ := runAll_bind.mp hrun
  obtain ⟨hread, hshort⟩ := h _ _ hfirst
  obtain ⟨short, hencode, hread', hshort'⟩ := hf _ _ _ hrest
  rw [hencode]
  exact ⟨runAll_bind.mpr ⟨first, _, _, rfl, hread, hread'⟩, hshort.append hshort'⟩

/-- What is read can be looked at, if that shows nothing but what was read. -/
theorem Normalizes.check {decoder : Decoder α} {f : α → Decoder β} {encode : α → Bytes}
    {encode' : β → Bytes} (h : decoder.Normalizes strict encode)
    (hf : ∀ first bytes value, (f first).runAll bytes = .ok value →
      bytes = [] ∧ encode' value = encode first) : (decoder >>= f).Normalizes strict encode' := by
  refine h.bind fun first bytes value hrun => ?_
  obtain ⟨rfl, hencode⟩ := hf _ _ _ hrun
  rw [← List.append_nil (encode first)] at hencode
  exact ⟨[], hencode, hrun, .refl _⟩

theorem Normalizes.map {decoder : Decoder α} {encode : α → Bytes}
    (h : decoder.Normalizes strict encode) (f : α → β) (g : β → α)
    (hg : ∀ bytes value, decoder.runAll bytes = .ok value → g (f value) = value) :
    (f <$> decoder).Normalizes strict fun value => encode (g value) := by
  intro bytes _ hrun
  obtain ⟨value, hvalue, rfl⟩ := runAll_map.mp hrun
  dsimp only
  rw [hg _ _ hvalue]
  obtain ⟨hread, hshort⟩ := h _ _ hvalue
  exact ⟨runAll_map.mpr ⟨value, hread, rfl⟩, hshort⟩

theorem runAll_times_encode {item : Decoder α} {encode : α → Bytes} {values : List α}
    (h : ∀ value ∈ values, item.runAll (encode value) = .ok value) :
    (item.times values.length).runAll (values.flatMap encode) = .ok values := by
  refine runAll_times.mpr ⟨values.map encode, List.flatMap_def, rfl, ?_⟩
  rw [List.forall₂_map_left_iff, List.forall₂_same]
  exact h

theorem Normalizes.of_mem_times {item : Decoder α} {encode : α → Bytes} {count : Nat}
    {bytes : Bytes} {values : List α} (h : item.Normalizes strict encode)
    (hrun : (item.times count).runAll bytes = .ok values) :
    (∀ value ∈ values, item.runAll (encode value) = .ok value) ∧
      Shortens strict (values.flatMap encode) bytes := by
  obtain ⟨pieces, rfl, -, hpieces⟩ := runAll_times.mp hrun
  clear hrun
  induction hpieces with
  | nil => exact ⟨fun _ hmem => absurd hmem List.not_mem_nil, .refl _⟩
  | cons hvalue _ ih =>
    obtain ⟨hread, hshort⟩ := h _ _ hvalue
    exact ⟨List.forall_mem_cons.mpr ⟨hread, ih.1⟩, hshort.append ih.2⟩

theorem Normalizes.times {item : Decoder α} {encode : α → Bytes}
    (h : item.Normalizes strict encode) (count : Nat) :
    (item.times count).Normalizes strict (·.flatMap encode) := by
  intro bytes values hrun
  obtain ⟨hread, hshort⟩ := h.of_mem_times hrun
  obtain rfl := length_of_times (runAll_eq_ok.mp hrun)
  exact ⟨runAll_times_encode hread, hshort⟩

theorem Normalizes.need {next : Bytes → Decoder α} {encode : α → Bytes}
    (h : (next []).Normalizes strict encode) :
    (Decoder.need 0 next).Normalizes strict encode := by
  intro bytes value hrun
  rw [runAll_need_zero] at hrun ⊢
  exact h _ _ hrun

theorem normalizes_varint : varint.Normalizes strict TypedStream.varint := by
  intro bytes n hrun
  have hvarint := runAll_varint.mp hrun
  exact ⟨runAll_varint.mpr (isVarint_varint hvarint.word), (Respells.varint hvarint).shortens⟩

theorem normalizes_zigzag :
    zigzag.Normalizes strict fun v => TypedStream.varint (TypedStream.zigzag v) :=
  normalizes_varint.map _ _ fun _ n _ => zigzag_unzigzag n

theorem normalizes_byte : byte.Normalizes strict fun b => [b] := by
  intro bytes b hrun
  obtain rfl := runAll_byte.mp hrun
  exact ⟨hrun, .refl _⟩

end

end Decoder

-- ---------------------------------------------------------------------------
-- Layouts
-- ---------------------------------------------------------------------------

namespace Layout

/-- Every block of the size of a value is the image of the value that it holds. -/
def Faithful (layout : Layout α) : Prop :=
  ∀ block, block.length = layout.size → layout.image (layout.ofImage block) = block

theorem faithful_word (width : Nat) : (word width).Faithful := by
  rintro block rfl
  exact littleEndian_ofLittleEndian block

theorem faithful_byte : byte.Faithful := by
  intro block hsize
  obtain ⟨b, rfl⟩ := List.length_eq_one_iff.mp hsize
  rfl

theorem faithful_octet (signed : Bool) : (octet signed).Faithful := by
  intro block hsize
  obtain ⟨b, rfl⟩ := List.length_eq_one_iff.mp hsize
  have hb := b.toNat_lt
  have hn : ofLittleEndian [b] = b.toNat := by
    rw [ofLittleEndian, ofLittleEndian, Nat.mul_zero, Nat.add_zero]
  have hmod : ((octet signed).ofImage [b] % 256).toNat = b.toNat := by
    simp only [octet]
    split <;> omega
  show [UInt8.ofNat ((octet signed).ofImage [b] % 256).toNat] = [b]
  rw [hmod, UInt8.ofNat_toNat]

theorem Faithful.xmap {layout : Layout α} (h : layout.Faithful) {f : α → β} {g : β → α}
    (hg : ∀ value, g (f value) = value) : (layout.xmap f g).Faithful := by
  intro block hsize
  show layout.image (g (f (layout.ofImage block))) = block
  rw [hg, h block hsize]

theorem Faithful.block_values {layout : Layout α} (h : layout.Faithful) {count : Nat}
    {block : Bytes} (hsize : block.length = count * layout.size) :
    layout.block (layout.values count block) = block := by
  induction count generalizing block with
  | zero =>
    rw [Nat.zero_mul] at hsize
    rw [List.eq_nil_of_length_eq_zero hsize]
    rfl
  | succ count ih =>
    rw [Nat.succ_mul] at hsize
    have hhead : (block.take layout.size).length = layout.size := by
      rw [List.length_take]
      omega
    have htail : (block.drop layout.size).length = count * layout.size := by
      rw [List.length_drop]
      omega
    have hback := ih htail
    rw [Layout.block] at hback ⊢
    rw [values_succ, List.flatMap_cons, h _ hhead, hback, List.take_append_drop]

theorem Faithful.array {layout : Layout α} (h : layout.Faithful) (n : Nat) :
    (layout.array n).Faithful :=
  fun _ hsize => h.block_values hsize

theorem faithful_nil : (nil : Layout (List α)).Faithful := by
  intro block hsize
  exact (List.eq_nil_of_length_eq_zero hsize).symm

theorem Faithful.cons {head : Layout α} {tail : Layout (List α)} (hh : head.Faithful)
    (ht : tail.Faithful) : (head.cons tail).Faithful := by
  intro block hsize
  replace hsize : block.length = head.size + tail.size := hsize
  have htake : (block.take head.size).length = head.size := by
    rw [List.length_take]
    omega
  have hdrop : (block.drop head.size).length = tail.size := by
    rw [List.length_drop]
    omega
  show head.image (head.ofImage (block.take head.size)) ++
    tail.image (tail.ofImage (block.drop head.size)) = block
  rw [hh _ htake, ht _ hdrop, List.take_append_drop]

theorem runAll_run {layout : Layout α} {count : Nat} {bytes : Bytes} {values : List α} :
    (layout.run count).runAll bytes = .ok values ↔
      bytes.length = count * layout.size ∧ values = layout.values count bytes := by
  rw [Decoder.runAll_eq_ok, run_eq]
  split
  · next hle =>
    rw [Except.ok.injEq, Prod.mk.injEq, List.drop_eq_nil_iff]
    exact ⟨fun h => ⟨by omega, h.1.symm⟩, fun h => ⟨h.2.symm, by omega⟩⟩
  · next hgt =>
    exact ⟨nofun, fun h => absurd (Nat.le_of_eq h.1.symm) hgt⟩

theorem runAll_byte {count : Nat} {bytes found : Bytes} :
    (byte.run count).runAll bytes = .ok found ↔ found = bytes ∧ bytes.length = count := by
  rw [runAll_run, show byte.size = 1 from rfl, Nat.mul_one, and_comm]
  refine and_congr_left fun hlength => ?_
  have hvalues := faithful_byte.block_values (hlength.trans (Nat.mul_one count).symm)
  rw [Codec.block_byte] at hvalues
  rw [hvalues]

section
variable {strict : Prop}

theorem Faithful.normalizes_run {layout : Layout α} (h : layout.Faithful) (count : Nat) :
    (layout.run count).Normalizes strict layout.block := by
  intro bytes values hrun
  obtain ⟨hsize, rfl⟩ := runAll_run.mp hrun
  rw [h.block_values hsize]
  exact ⟨hrun, .refl _⟩

theorem Faithful.normalizes {layout : Layout α} (h : layout.Faithful) :
    (layout.ofImage <$> Decoder.bytes layout.size).Normalizes strict layout.image := by
  intro bytes value hrun
  obtain ⟨found, hfound, rfl⟩ := Decoder.runAll_map.mp hrun
  obtain ⟨rfl, hsize⟩ := Decoder.runAll_bytes.mp hfound
  rw [h _ hsize]
  exact ⟨hrun, .refl _⟩

end

end Layout

-- ---------------------------------------------------------------------------
-- Codecs
-- ---------------------------------------------------------------------------

namespace Codec

open Std (TransOrd)

/-- What is read, value by value or in a run, can be written as it is and read again. -/
structure Normalizes (strict : Prop) (codec : Codec α) : Prop where
  read : codec.read.Normalizes strict codec.encode
  readRun : ∀ count, (codec.readRun count).Normalizes strict (·.flatMap codec.encode)
  length : (codec.readRun count).runAll bytes = .ok values → values.length = count
  runWrites : ∀ values, (codec.runWrites values).flatten = values.flatMap codec.encode

section
variable {strict : Prop}

theorem normalizes_single {writes : α → List Bytes} {read : Decoder α}
    (h : read.Normalizes strict fun value => (writes value).flatten) :
    (single writes read).Normalizes strict where
  read := h
  readRun count := h.times count
  length hrun := Decoder.length_of_times (Decoder.runAll_eq_ok.mp hrun)
  runWrites := flatten_runWrites_single writes read

theorem Normalizes.bulk {codec : Codec α} (h : codec.Normalizes strict) {layout : Layout α}
    (himage : ∀ v, layout.image v = codec.encode v) (hlayout : layout.Faithful) :
    (codec.bulk layout).Normalizes strict where
  read := h.read
  readRun count := by
    have hblock : layout.block = (·.flatMap (codec.bulk layout).encode) :=
      funext fun values => List.flatMap_congr fun v _ => himage v
    rw [← hblock]
    exact hlayout.normalizes_run count
  length hrun := by
    obtain ⟨-, rfl⟩ := Layout.runAll_run.mp hrun
    exact layout.length_values _ _
  runWrites := flatten_runWrites_bulk himage

theorem Normalizes.xmap {codec : Codec α} (h : codec.Normalizes strict) {f : α → β} {g : β → α}
    (hg : ∀ value, g (f value) = value) : (codec.xmap f g).Normalizes strict where
  read := h.read.map f g fun _ value _ => hg value
  readRun count := by
    have hencode : (fun values : List β => values.flatMap (codec.xmap f g).encode) =
        fun values => (values.map g).flatMap codec.encode :=
      funext fun values => by
        rw [List.flatMap_map]
        rfl
    rw [hencode]
    refine (h.readRun count).map (List.map f) (List.map g) fun _ values _ => ?_
    rw [List.map_map]
    exact List.map_id'' hg values
  length hrun := by
    obtain ⟨values, hvalues, rfl⟩ := Decoder.runAll_map.mp hrun
    rw [List.length_map, h.length hvalues]
  runWrites := flatten_runWrites_xmap h.runWrites f g

-- ---------------------------------------------------------------------------
-- Scalars
-- ---------------------------------------------------------------------------

theorem normalizes_bool : bool.Normalizes strict := by
  refine normalizes_single (Decoder.normalizes_byte.check fun b bytes value hrun => ?_)
  split at hrun
  · next hb =>
    obtain ⟨rfl, rfl⟩ := Decoder.runAll_pure.mp hrun
    obtain rfl : b = 0 := UInt8.toNat_inj.mp hb
    exact ⟨rfl, rfl⟩
  · next hb =>
    obtain ⟨rfl, rfl⟩ := Decoder.runAll_pure.mp hrun
    obtain rfl : b = 1 := UInt8.toNat_inj.mp hb
    exact ⟨rfl, rfl⟩
  · exact absurd hrun Decoder.runAll_malformed

theorem normalizes_intSingle (kind : IntKind) : (intSingle kind).Normalizes strict := by
  unfold intSingle
  split
  · refine normalizes_single ?_
    simp only [List.flatten_singleton]
    exact (Layout.faithful_octet kind.signed).normalizes
  · refine normalizes_single (Decoder.normalizes_varint.check fun n bytes value hrun => ?_)
    split at hrun
    · obtain ⟨rfl, rfl⟩ := Decoder.runAll_pure.mp hrun
      rw [List.flatten_singleton, Int.toNat_natCast]
      exact ⟨rfl, rfl⟩
    · exact absurd hrun Decoder.runAll_malformed
  · refine normalizes_single (Decoder.normalizes_zigzag.check fun v bytes value hrun => ?_)
    split at hrun
    · obtain ⟨rfl, rfl⟩ := Decoder.runAll_pure.mp hrun
      exact ⟨rfl, List.flatten_singleton ..⟩
    · exact absurd hrun Decoder.runAll_malformed

theorem normalizes_int (kind : IntKind) : (int kind).Normalizes strict := by
  unfold int
  split
  · next hk =>
    exact (normalizes_intSingle kind).bulk (intSingle_byte kind hk) (Layout.faithful_octet _)
  · exact normalizes_intSingle kind

theorem normalizes_word (width : Nat) : (word width).Normalizes strict := by
  have hsingle : (single (fun n => [littleEndian width n]) (Decoder.fixed width)).Normalizes
      strict := by
    refine normalizes_single ?_
    simp only [List.flatten_singleton]
    exact (Layout.faithful_word width).normalizes
  exact hsingle.bulk (fun _ => (List.flatten_singleton ..).symm) (Layout.faithful_word width)

theorem runAll_readText {length : Nat} {bytes : Bytes} {text : String} :
    (readText length).runAll bytes = .ok text ↔ bytes = utf8 text ∧ bytes.length = length := by
  rw [readText, Decoder.runAll_bind]
  simp only [Layout.runAll_byte]
  constructor
  · rintro ⟨found, _, back, rfl, ⟨rfl, hlength⟩, hrun⟩
    split at hrun
    · next htext =>
      obtain ⟨rfl, rfl⟩ := Decoder.runAll_pure.mp hrun
      rw [List.append_nil]
      exact ⟨(utf8_of_ofUtf8? htext).symm, hlength⟩
    · exact absurd hrun Decoder.runAll_malformed
  · rintro ⟨rfl, hlength⟩
    refine ⟨utf8 text, utf8 text, [], (List.append_nil _).symm, ⟨rfl, hlength⟩, ?_⟩
    rw [ofUtf8?_utf8]
    exact Decoder.runAll_pure.mpr ⟨rfl, rfl⟩

theorem normalizes_string : string.Normalizes strict := by
  refine normalizes_single (Decoder.normalizes_varint.bind fun length bytes text hrun => ?_)
  obtain ⟨rfl, rfl⟩ := runAll_readText.mp hrun
  refine ⟨utf8 text, ?_, hrun, .refl _⟩
  rw [List.flatten_cons, List.flatten_singleton]

theorem normalizes_unit : unit.Normalizes strict :=
  normalizes_single (Decoder.normalizes_pure rfl)

-- ---------------------------------------------------------------------------
-- Options, wrappers, lists and fixed arrays
-- ---------------------------------------------------------------------------

theorem Normalizes.option {codec : Codec α} (h : codec.Normalizes strict) :
    codec.option.Normalizes strict := by
  refine normalizes_single (Decoder.normalizes_byte.bind fun b bytes value hrun => ?_)
  split at hrun
  · next hb =>
    obtain ⟨rfl, rfl⟩ := Decoder.runAll_pure.mp hrun
    obtain rfl : b = 0 := UInt8.toNat_inj.mp hb
    exact ⟨[], rfl, rfl, .refl _⟩
  · next hb =>
    obtain ⟨item, hitem, rfl⟩ := Decoder.runAll_map.mp hrun
    obtain rfl : b = 1 := UInt8.toNat_inj.mp hb
    obtain ⟨hread, hshort⟩ := h.read _ _ hitem
    exact ⟨codec.encode item, rfl, Decoder.runAll_map.mpr ⟨item, hread, rfl⟩, hshort⟩
  · exact absurd hrun Decoder.runAll_malformed

theorem Normalizes.wrapped {codec : Codec α} (h : codec.Normalizes strict) :
    codec.wrapped.Normalizes strict :=
  normalizes_single h.read

theorem Normalizes.list {codec : Codec α} (h : codec.Normalizes strict) :
    codec.list.Normalizes strict := by
  refine normalizes_single (Decoder.normalizes_varint.bind fun count bytes values hrun => ?_)
  obtain ⟨hread, hshort⟩ := h.readRun count _ _ hrun
  refine ⟨values.flatMap codec.encode, ?_, hread, hshort⟩
  rw [List.flatten_cons, h.runWrites, h.length hrun]

theorem flatten_groups {n count : Nat} {values : List α} (h : values.length = count * n) :
    (groups n count values []).flatten = values := by
  induction count generalizing values with
  | zero =>
    rw [Nat.zero_mul] at h
    rw [List.eq_nil_of_length_eq_zero h]
    rfl
  | succ count ih =>
    rw [Nat.succ_mul] at h
    have hrest : (values.drop n).length = count * n := by
      rw [List.length_drop]
      omega
    rw [groups_succ, List.flatten_cons, ih hrest, List.take_append_drop]

theorem Normalizes.array {codec : Codec α} (h : codec.Normalizes strict) (n : Nat) :
    (codec.array n).Normalizes strict where
  read := by
    have hencode : (codec.array n).encode = (·.flatMap codec.encode) := funext h.runWrites
    rw [hencode]
    exact h.readRun n
  readRun count := by
    have hencode : (fun arrays : List (List α) => arrays.flatMap (codec.array n).encode) =
        fun arrays => arrays.flatten.flatMap codec.encode :=
      funext (flatMap_encode_array h.runWrites n)
    rw [hencode]
    show (if count * n < sizeLimit then _ else _ : Decoder _).Normalizes strict _
    split
    · exact (h.readRun (count * n)).map (groups n count · []) List.flatten fun _ _ hrun =>
        flatten_groups (h.length hrun)
    · exact Decoder.normalizes_malformed _ _
  length hrun := by
    obtain ⟨-, values, -, rfl⟩ := run_array_ok (Decoder.runAll_eq_ok.mp hrun)
    exact length_groups _ _ _
  runWrites arrays :=
    (h.runWrites arrays.flatten).trans (flatMap_encode_array h.runWrites n arrays).symm

-- ---------------------------------------------------------------------------
-- Maps
-- ---------------------------------------------------------------------------

theorem Normalizes.entry {key : Codec κ} {value : Codec α} (hk : key.Normalizes strict)
    (hv : value.Normalizes strict) : (Codec.entry key value).Normalizes strict := by
  refine normalizes_single (hk.read.bind fun k bytes e hrun => ?_)
  obtain ⟨v, hvalue, rfl⟩ := Decoder.runAll_map.mp hrun
  obtain ⟨hread, hshort⟩ := hv.read _ _ hvalue
  refine ⟨value.encode v, ?_, Decoder.runAll_map.mpr ⟨v, hread, rfl⟩, hshort⟩
  exact List.flatten_append

theorem length_flatMap_le {es es' : List α} (h : es.Subperm es') (f : α → Bytes) :
    (es.flatMap f).length ≤ (es'.flatMap f).length := by
  obtain ⟨listing, hperm, hsub⟩ := h
  rw [← (hperm.flatMap_right f).length_eq]
  exact (hsub.flatMap f).length_le

/-- The entries of a map that has been read are read again in any order. Of entries that share a key
one is left, so even the count may become shorter. -/
theorem Normalizes.read_assoc [Ord κ] [TransOrd κ] {key : Codec κ} {value : Codec α}
    (hk : key.Normalizes strict) (hv : value.Normalizes strict) (hmaps : ¬ strict)
    {bytes : Bytes} {es fs : List (κ × α)}
    (hrun : (Codec.assoc key value).read.runAll bytes = .ok es) (hperm : fs.Perm es) :
    (Codec.assoc key value).read.runAll ((Codec.assoc key value).encode fs) = .ok es ∧
      Shortens strict ((Codec.assoc key value).encode fs) bytes := by
  obtain ⟨count, spelling, back, rfl, hcount, hrun⟩ := Decoder.runAll_bind.mp hrun
  obtain ⟨listing, hlisting, rfl⟩ := Decoder.runAll_map.mp hrun
  have hentry := hk.entry hv
  have hvarint := Decoder.runAll_varint.mp hcount
  -- The entries that are left are among those that were read, so each of them reads back, and
  -- together with their count they take no more bytes.
  have hsub := hperm.subperm.trans (Assoc.ofList_subperm listing)
  obtain ⟨hreads, hshort⟩ := hentry.read.of_mem_times hlisting
  obtain rfl := Decoder.length_of_times (Decoder.runAll_eq_ok.mp hlisting)
  have hcounted : (TypedStream.varint fs.length).length ≤ spelling.length := by
    refine Nat.le_trans ?_ hvarint.spells.varint_shortest.1
    rw [length_varint, length_varint]
    exact varintLength_mono hsub.length_le
  have hlisted := Nat.le_trans (length_flatMap_le hsub (Codec.entry key value).encode)
    hshort.length_le
  have hword := Nat.lt_of_le_of_lt hsub.length_le hvarint.word
  rw [encode_assoc]
  refine ⟨?_, ⟨?_, fun hstrict => absurd hstrict hmaps⟩⟩
  · refine Decoder.runAll_bind.mpr ⟨_, _, _, rfl,
      Decoder.runAll_varint.mpr (isVarint_varint hword), Decoder.runAll_map.mpr ⟨_,
        Decoder.runAll_times_encode fun e he => hreads e (hsub.subset he), ?_⟩⟩
    exact (Assoc.ofList_of_perm (Assoc.ascending_ofList listing) hperm).symm
  · rw [List.length_append, List.length_append]
    omega

theorem Normalizes.assoc [Ord κ] [TransOrd κ] {key : Codec κ} {value : Codec α}
    (hk : key.Normalizes strict) (hv : value.Normalizes strict) (hmaps : ¬ strict) :
    (Codec.assoc key value).Normalizes strict :=
  normalizes_single fun _ _ hrun => hk.read_assoc hv hmaps hrun (.refl _)

theorem Normalizes.hashed [Ord κ] [TransOrd κ] {key : Codec κ} {value : Codec α}
    (hk : key.Normalizes strict) (hv : value.Normalizes strict) (hmaps : ¬ strict)
    (order : Assoc.HashOrder κ α) : (Codec.hashed order key value).Normalizes strict := by
  refine normalizes_single fun bytes es hrun => ?_
  obtain ⟨m, hm, rfl⟩ := Decoder.runAll_map.mp hrun
  obtain ⟨hread, hshort⟩ := hk.read_assoc hv hmaps hm (order.perm m)
  exact ⟨Decoder.runAll_map.mpr ⟨m, hread, rfl⟩, hshort⟩

-- ---------------------------------------------------------------------------
-- Row-major arrays
-- ---------------------------------------------------------------------------

theorem Normalizes.readGrid {codec : Codec α} (h : codec.Normalizes strict) {shape : List Nat}
    {bytes : Bytes} {g : Grid α} (hrun : (readGrid codec shape).runAll bytes = .ok g) :
    g.shape = shape ∧ (readGrid codec shape).runAll (g.data.flatMap codec.encode) = .ok g ∧
      Shortens strict (g.data.flatMap codec.encode) bytes := by
  unfold Codec.readGrid at hrun ⊢
  split at hrun
  · next count hcount =>
    obtain ⟨data, hdata, rfl⟩ := Decoder.runAll_map.mp hrun
    obtain ⟨hread, hshort⟩ := h.readRun count _ _ hdata
    exact ⟨rfl, Decoder.runAll_map.mpr ⟨data, hread, rfl⟩, hshort⟩
  · exact absurd hrun Decoder.runAll_malformed

theorem Normalizes.readShaped {codec : Codec α} (h : codec.Normalizes strict) (rank : Nat) :
    (Decoder.varint.times rank >>= Codec.readGrid codec).Normalizes strict fun g =>
      (g.shape.map TypedStream.varint ++ codec.runWrites g.data).flatten := by
  refine (Decoder.normalizes_varint.times rank).bind fun shape bytes g hrun => ?_
  obtain ⟨rfl, hread, hshort⟩ := h.readGrid hrun
  refine ⟨g.data.flatMap codec.encode, ?_, hread, hshort⟩
  rw [List.flatten_append, h.runWrites, ← List.flatMap_def]

theorem rank_of_readShaped {codec : Codec α} {rank : Nat} {bytes : Bytes} {g : Grid α}
    (h : (Decoder.varint.times rank >>= Codec.readGrid codec).runAll bytes = .ok g) :
    g.rank = rank := by
  obtain ⟨shape, front, back, -, hshape, hrun⟩ := Decoder.runAll_bind.mp h
  unfold Codec.readGrid at hrun
  split at hrun
  · obtain ⟨data, -, rfl⟩ := Decoder.runAll_map.mp hrun
    exact Decoder.length_of_times (Decoder.runAll_eq_ok.mp hshape)
  · exact absurd hrun Decoder.runAll_malformed

theorem Normalizes.grid {codec : Codec α} (h : codec.Normalizes strict) (rank : Nat) :
    (Codec.grid rank codec).Normalizes strict := normalizes_single (h.readShaped rank)

theorem Normalizes.rankedGrid {codec : Codec α} (h : codec.Normalizes strict) :
    (Codec.rankedGrid codec).Normalizes strict := by
  refine normalizes_single (Decoder.normalizes_varint.bind fun rank bytes g hrun => ?_)
  obtain ⟨hread, hshort⟩ := h.readShaped rank _ _ hrun
  refine ⟨_, ?_, hread, hshort⟩
  rw [List.flatten_cons, rank_of_readShaped hrun]

-- ---------------------------------------------------------------------------
-- Records, unions and enums
-- ---------------------------------------------------------------------------

theorem normalizes_nil : (nil : Codec (List α)).Normalizes strict :=
  normalizes_single (Decoder.normalizes_pure rfl)

theorem Normalizes.cons {head : Codec α} {tail : Codec (List α)} (hh : head.Normalizes strict)
    (ht : tail.Normalizes strict) : (Codec.cons head tail).Normalizes strict := by
  refine normalizes_single (hh.read.bind fun v bytes values hrun => ?_)
  obtain ⟨vs, hvalues, rfl⟩ := Decoder.runAll_map.mp hrun
  obtain ⟨hread, hshort⟩ := ht.read _ _ hvalues
  refine ⟨tail.encode vs, ?_, Decoder.runAll_map.mpr ⟨vs, hread, rfl⟩, hshort⟩
  exact encode_cons head tail v vs

theorem normalizes_readIndex (alternatives : Nat) :
    (readIndex alternatives).Normalizes strict TypedStream.varint := by
  refine Decoder.normalizes_varint.check fun index bytes found hrun => ?_
  split at hrun
  · obtain ⟨rfl, rfl⟩ := Decoder.runAll_pure.mp hrun
    exact ⟨rfl, rfl⟩
  · exact absurd hrun Decoder.runAll_malformed

theorem Normalizes.union {alternatives : List (Codec α)}
    (h : ∀ codec ∈ alternatives, codec.Normalizes strict) (type : String) :
    (Codec.union type alternatives).Normalizes strict := by
  refine normalizes_single ((normalizes_readIndex _).bind fun index bytes value hrun => ?_)
  split at hrun
  · next codec hcodec =>
    obtain ⟨payload, hpayload, rfl⟩ := Decoder.runAll_map.mp hrun
    obtain ⟨hread, hshort⟩ := (h codec (List.mem_of_getElem? hcodec)).read _ _ hpayload
    refine ⟨codec.encode payload, ?_, ?_, hshort⟩
    · dsimp only
      rw [hcodec]
      rfl
    · exact Decoder.runAll_map.mpr ⟨payload, hread, rfl⟩
  · exact absurd hrun Decoder.runAll_malformed

theorem normalizes_enum (type : String) (kind : IntKind) (values : List Int) :
    (enum type kind values).Normalizes strict := by
  refine normalizes_single ((normalizes_int kind).read.check fun v bytes place hrun => ?_)
  split at hrun
  · next found hfound =>
    obtain ⟨rfl, rfl⟩ := Decoder.runAll_pure.mp hrun
    obtain ⟨hlt, hv, -⟩ := List.findIdx?_eq_some_iff_getElem.mp hfound
    rw [List.getElem?_eq_getElem hlt, Option.getD_some, beq_iff_eq.mp hv]
    exact ⟨rfl, rfl⟩
  · exact absurd hrun Decoder.runAll_malformed

-- ---------------------------------------------------------------------------
-- Self-reference
-- ---------------------------------------------------------------------------

theorem normalizes_unreachable : (unreachable : Codec α).Normalizes strict :=
  normalizes_single fun _ _ hrun => absurd hrun Decoder.runAll_fail

theorem normalizes_unrolled {body : (Unit → Codec α) → Codec α}
    (h : ∀ inner, (inner ()).Normalizes strict → (body inner).Normalizes strict) (depth : Nat) :
    (unrolled body depth).Normalizes strict := by
  induction depth with
  | zero => exact normalizes_unreachable
  | succ depth ih => exact h _ ih

theorem Normalizes.delayed {codec : Unit → Codec α} (h : (codec ()).Normalizes strict) :
    (delayed codec).Normalizes strict where
  read := .need h.read
  readRun count := .need (h.readRun count)
  length hrun := h.length (Decoder.runAll_need_zero.symm.trans hrun)
  runWrites := h.runWrites

end

end Codec

end TypedStream
