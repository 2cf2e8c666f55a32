import TypedStream.Index.Section
import TypedStream.Proofs.Codec.Compound
import TypedStream.Proofs.Index.Recording

/-!
# Index sections read back

A section is the magic bytes, the version and three tables, and nothing else is read as one
(`StreamIndex.runAll_readSection`). The section of an index reads back as the index. All lengths
in it are lengths of parts of the section, so they fit wherever the section does.
-/

namespace TypedStream

open Codec (encode)

-- ---------------------------------------------------------------------------
-- Tables
-- ---------------------------------------------------------------------------

theorem length_le_flatMap {values : List α} {f : α → Bytes} {v : α} (h : v ∈ values) :
    (f v).length ≤ (values.flatMap f).length := by
  obtain ⟨before, after, rfl⟩ := List.append_of_mem h
  simp only [List.flatMap_append, List.flatMap_cons, List.length_append]
  omega

theorem count_le_flatMap {values : List α} {f : α → Bytes} (h : ∀ v ∈ values, 0 < (f v).length) :
    values.length ≤ (values.flatMap f).length := by
  induction values with
  | nil => exact Nat.zero_le _
  | cons v vs ih =>
    have hv := h v List.mem_cons_self
    have hvs := ih fun u hu => h u (List.mem_cons_of_mem _ hu)
    rw [List.length_cons, List.flatMap_cons, List.length_append]
    omega

namespace Codec

theorem encode_string (text : String) :
    string.encode text = TypedStream.varint (utf8 text).length ++ utf8 text := by
  simp [encode, string, single]

theorem encode_varints (ns : List Nat) :
    (list varint).encode ns = TypedStream.varint ns.length ++ ns.flatMap TypedStream.varint := by
  have hrun := flatten_runWrites_single (fun n => [TypedStream.varint n]) Decoder.varint ns
  have hencode : varint.encode = TypedStream.varint := by
    funext n
    exact List.flatten_singleton
  show TypedStream.varint ns.length ++ (varint.runWrites ns).flatten = _
  rw [← hencode]
  exact congrArg _ hrun

section
variable {value : Codec α} {es : List (String × α)} {e : String × α}

theorem length_entry_le (h : e ∈ es) :
    (utf8 e.1).length + (value.encode e.2).length ≤ ((assoc string value).encode es).length := by
  have hentry := length_le_flatMap (f := (entry string value).encode) h
  rw [encode_entry, encode_string] at hentry
  rw [encode_assoc]
  simp only [List.length_append] at hentry ⊢
  omega

theorem length_assoc_le : es.length ≤ ((assoc string value).encode es).length := by
  have hcount : es.length ≤ (es.flatMap (entry string value).encode).length := by
    refine count_le_flatMap fun e _ => ?_
    have := length_varint_pos (utf8 e.1).length
    rw [encode_entry, encode_string]
    simp only [List.length_append]
    omega
  rw [encode_assoc, List.length_append]
  omega

theorem run_table {holds : α → Prop} {fits : Nat → Prop}
    (hvalue : value.Carries (fun v w => v = w ∧ holds w) fits) (hes : Assoc.Ascending es)
    (hholds : ∀ e ∈ es, holds e.2)
    (hsize : ((assoc string value).encode es).length < sizeLimit) (rest : Bytes) :
    (assoc string value).read.run ((assoc string value).encode es ++ rest) = .ok (es, rest) := by
  have hcarries := (carries_string (fun _ => True)).assoc hvalue (fun _ => True)
  refine hcarries.read ⟨hes, Nat.lt_of_le_of_lt length_assoc_le hsize, es, .refl es, ?_⟩ rest
  rw [List.forall₂_same]
  intro e he
  have hlength : (utf8 e.1).length + (value.encode e.2).length ≤
      ((assoc string value).encode es).length := length_entry_le he
  exact ⟨⟨rfl, by omega⟩, rfl, hholds e he⟩

end

end Codec

-- ---------------------------------------------------------------------------
-- Sections
-- ---------------------------------------------------------------------------

namespace StreamIndex

def bytes (index : StreamIndex) : Bytes :=
  magic ++ (littleEndian 4 formatVersion ++ (offsetTable.encode index.steps ++
    (listTable.encode index.items ++ listTable.encode index.blocks)))

theorem flatten_writes (index : StreamIndex) (start : Nat) :
    (index.writes start).flatten = index.bytes ++ littleEndian pointerBytes start := by
  simp [writes, bytes, encode]

theorem run_offsetTable {es : List (String × Nat)} (hes : Assoc.Ascending es)
    (hoffsets : ∀ e ∈ es, e.2 < sizeLimit) (hsize : (offsetTable.encode es).length < sizeLimit)
    (rest : Bytes) : offsetTable.read.run (offsetTable.encode es ++ rest) = .ok (es, rest) :=
  Codec.run_table (Codec.carries_varint (fun _ => True)) hes hoffsets hsize rest

theorem count_le_encode {es : List (String × List Nat)} {e : String × List Nat} (h : e ∈ es) :
    e.2.length ≤ (listTable.encode es).length := by
  have hentry : (utf8 e.1).length + ((Codec.list .varint).encode e.2).length ≤
      (listTable.encode es).length := Codec.length_entry_le h
  have hcount : e.2.length ≤ (e.2.flatMap varint).length :=
    count_le_flatMap fun n _ => length_varint_pos n
  rw [Codec.encode_varints, List.length_append] at hentry
  omega

theorem run_listTable {es : List (String × List Nat)} (hes : Assoc.Ascending es)
    (hnumbers : ∀ e ∈ es, ∀ n ∈ e.2, n < sizeLimit)
    (hsize : (listTable.encode es).length < sizeLimit) (rest : Bytes) :
    listTable.read.run (listTable.encode es ++ rest) = .ok (es, rest) := by
  have hlist := (Codec.carries_varint (fun _ => True)).list (fun _ => True)
  have hsame : (Codec.list .varint).Carries
      (fun v w => v = w ∧ w.length < sizeLimit ∧ ∀ n ∈ w, n < sizeLimit) (fun _ => True) := by
    refine hlist.mono ?_ id
    rintro v _ ⟨rfl, hlength, hall⟩
    refine ⟨?_, hlength, trivial⟩
    rw [List.forall₂_same]
    exact fun n hn => ⟨rfl, hall n hn⟩
  refine Codec.run_table hsame hes (fun e he => ⟨?_, hnumbers e he⟩) hsize rest
  exact Nat.lt_of_le_of_lt (count_le_encode he) hsize

theorem count_le_bytes (index : StreamIndex) (name : String) :
    (index.itemsOf name).length ≤ index.bytes.length := by
  have htable : (listTable.encode index.items).length ≤ index.bytes.length := by
    simp only [bytes, List.length_append]
    omega
  refine Nat.le_trans ?_ htable
  unfold itemsOf
  cases hfound : Assoc.find? name index.items with
  | none => exact Nat.zero_le _
  | some offsets => exact count_le_encode (Assoc.mem_of_find? hfound)

/-- What is stored of an index: tables that ascend, of 64-bit words. -/
structure Storable (index : StreamIndex) : Prop where
  steps_ascend : Assoc.Ascending index.steps
  items_ascend : Assoc.Ascending index.items
  blocks_ascend : Assoc.Ascending index.blocks
  steps_lt : ∀ e ∈ index.steps, e.2 < sizeLimit
  items_lt : ∀ e ∈ index.items, ∀ n ∈ e.2, n < sizeLimit
  blocks_lt : ∀ e ∈ index.blocks, ∀ n ∈ e.2, n < sizeLimit

theorem Regular.storable {index : StreamIndex} {limit : Nat} (h : index.Regular limit)
    (hlimit : limit < sizeLimit) (hsize : index.bytes.length < sizeLimit) : index.Storable where
  steps_ascend := h.steps_ascend
  items_ascend := h.items_ascend
  blocks_ascend := h.blocks_ascend
  steps_lt := fun e he => Nat.lt_of_le_of_lt (h.steps_le e he) hlimit
  items_lt := fun e he n hn => Nat.lt_of_le_of_lt (h.items_le e he n hn) hlimit
  blocks_lt := fun e he n hn => Nat.lt_of_le_of_lt
    (Nat.le_trans (h.blocks_le e he n hn) (index.count_le_bytes e.1)) hsize

/-- Bytes that are a section: the magic bytes, the version, and the three tables of an index. -/
inductive IsSection : Bytes → StreamIndex → Prop
  | intro {index : StreamIndex} {steps items blocks : Bytes}
      (hsteps : offsetTable.decode steps = .ok index.steps)
      (hitems : listTable.decode items = .ok index.items)
      (hblocks : listTable.decode blocks = .ok index.blocks) :
      IsSection (magic ++ (littleEndian 4 formatVersion ++ (steps ++ (items ++ blocks)))) index

theorem Storable.isSection {index : StreamIndex} (h : index.Storable)
    (hsize : index.bytes.length < sizeLimit) : IsSection index.bytes index := by
  have hlengths := hsize
  simp only [bytes, List.length_append] at hlengths
  have hsteps := run_offsetTable h.steps_ascend h.steps_lt (by omega) []
  have hitems := run_listTable h.items_ascend h.items_lt (by omega) []
  have hblocks := run_listTable h.blocks_ascend h.blocks_lt (by omega) []
  rw [List.append_nil] at hsteps hitems hblocks
  exact .intro (Decoder.runAll_eq_ok.mpr hsteps) (Decoder.runAll_eq_ok.mpr hitems)
    (Decoder.runAll_eq_ok.mpr hblocks)

def readTables : Decoder StreamIndex := do
  let steps ← offsetTable.read
  let items ← listTable.read
  let blocks ← listTable.read
  return { steps, items, blocks }

theorem readSection_eq : readSection =
    (Decoder.bytes magic.length >>= fun found =>
      if found ≠ magic then .fail (.index .notIndexFormat)
      else Decoder.fixed 4 >>= fun version =>
        if version ≠ formatVersion then .fail (.index (.indexVersion version)) else readTables) :=
  rfl

theorem run_readTables {index : StreamIndex} {bytes rest : Bytes} :
    readTables.run bytes = .ok (index, rest) ↔
      ∃ steps items blocks, bytes = steps ++ (items ++ (blocks ++ rest)) ∧
        offsetTable.decode steps = .ok index.steps ∧ listTable.decode items = .ok index.items ∧
        listTable.decode blocks = .ok index.blocks := by
  constructor
  · intro h
    obtain ⟨_, _, hsteps, h₁⟩ := Decoder.run_bind_iff.mp h
    obtain ⟨_, _, hitems, h₂⟩ := Decoder.run_bind_iff.mp h₁
    obtain ⟨_, _, hblocks, h₃⟩ := Decoder.run_bind_iff.mp h₂
    obtain ⟨steps, rfl, hsteps'⟩ := Decoder.run_eq_ok_iff.mp hsteps
    obtain ⟨items, rfl, hitems'⟩ := Decoder.run_eq_ok_iff.mp hitems
    obtain ⟨blocks, rfl, hblocks'⟩ := Decoder.run_eq_ok_iff.mp hblocks
    cases h₃
    exact ⟨steps, items, blocks, rfl, hsteps', hitems', hblocks'⟩
  · rintro ⟨steps, items, blocks, rfl, hsteps, hitems, hblocks⟩
    rw [readTables, Decoder.run_bind_ok (Decoder.run_eq_ok_iff.mpr ⟨steps, rfl, hsteps⟩),
      Decoder.run_bind_ok (Decoder.run_eq_ok_iff.mpr ⟨items, rfl, hitems⟩),
      Decoder.run_bind_ok (Decoder.run_eq_ok_iff.mpr ⟨blocks, rfl, hblocks⟩)]
    rfl

theorem IsSection.run_readSection {index : StreamIndex} {bytes : Bytes} (h : IsSection bytes index)
    (rest : Bytes) : readSection.run (bytes ++ rest) = .ok (index, rest) := by
  obtain ⟨hsteps, hitems, hblocks⟩ := h
  rw [readSection_eq, List.append_assoc, List.append_assoc, List.append_assoc, List.append_assoc,
    Decoder.run_bind_ok (Decoder.run_bytes_append magic _), if_neg (not_not_intro rfl),
    Decoder.run_bind_ok (Decoder.run_fixed_littleEndian 4 formatVersion _ (by decide)),
    if_neg (not_not_intro rfl)]
  exact run_readTables.mpr ⟨_, _, _, rfl, hsteps, hitems, hblocks⟩

/-- Nothing but a section is read as one. -/
theorem isSection_of_run {index : StreamIndex} {bytes rest : Bytes}
    (h : readSection.run bytes = .ok (index, rest)) :
    ∃ front, bytes = front ++ rest ∧ IsSection front index := by
  rw [readSection_eq] at h
  obtain ⟨found, after, hmagic, h₁⟩ := Decoder.run_bind_iff.mp h
  split at h₁
  · cases h₁
  next hfound =>
  obtain rfl : found = magic := not_not.mp hfound
  obtain ⟨version, after', hversion, h₂⟩ := Decoder.run_bind_iff.mp h₁
  split at h₂
  · cases h₂
  next hfound =>
  obtain rfl : version = formatVersion := not_not.mp hfound
  obtain ⟨steps, items, blocks, rfl, hsteps, hitems, hblocks⟩ := run_readTables.mp h₂
  obtain ⟨-, rfl⟩ := Decoder.run_bytes_ok hmagic
  rw [Decoder.run_fixed_ok hversion]
  refine ⟨_, ?_, .intro hsteps hitems hblocks⟩
  simp only [List.append_assoc]

end StreamIndex

end TypedStream
