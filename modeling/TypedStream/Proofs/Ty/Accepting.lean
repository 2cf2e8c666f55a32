import TypedStream.Proofs.Codec.Normal
import TypedStream.Proofs.Ty.RoundTrip

/-!
# What a type accepts

A reader takes more byte strings than those that a writer makes, but it is no less exact about them.
Where it reads a value, the bytes it took decide: it reads the same value from them whatever
follows, and finds any front of them cut short (`Ty.reads_locally`). What it has read it can write
again, and that is the normal form of what it took: no longer, read as the same value and, if there
is no map in the type, the same but for the spelling of numbers (`Ty.rewrites`).
-/

namespace TypedStream

open Lossless (Ahead)

-- ---------------------------------------------------------------------------
-- Reading from what has been taken
-- ---------------------------------------------------------------------------

/-- A value is read from as many bytes of an input as it takes. Another input that starts with these
bytes holds the same value in them, and one that ends within them is found to be cut short. -/
theorem Ty.reads_locally (type : Ty) {input input' : InputStream} {pos : Nat} {bytes : Bytes}
    {value : Value} (ha : Ahead input pos bytes)
    (h : type.codec.read.exec input = .ok value input') :
    ∃ taken ≤ bytes.length, Ahead input' (pos + taken) (bytes.drop taken) ∧
      ∀ (other : InputStream) (start : Nat),
        (∀ more, Ahead other start (bytes.take taken ++ more) → ∃ other',
          type.codec.read.exec other = .ok value other' ∧ Ahead other' (start + taken) more) ∧
        ∀ cut < taken, Ahead other start (bytes.take cut) → ∃ other',
          type.codec.read.exec other = .error .endOfStream other' := by
  obtain ⟨front, rest, rfl, hfront, hahead⟩ := runAll_of_exec ha h
  refine ⟨front.length, ?_, ?_, fun other start =>
    ⟨fun more hother => ?_, fun cut hcut hother => ?_⟩⟩
  · rw [List.length_append]
    exact Nat.le_add_right _ _
  · rwa [List.drop_left]
  · rw [List.take_left] at hother
    exact exec_front hother (Decoder.run_eq_ok_iff.mpr ⟨front, rfl, hfront⟩)
  · rw [List.take_append_of_le_length (Nat.le_of_lt hcut)] at hother
    have hrun := Decoder.runAll_eq_ok.mp hfront
    rw [← List.append_nil front] at hrun
    exact exec_of_run_error hother (Decoder.run_take_front hrun hcut)

/-- A map that no writer puts down like this: its count and a value are spelled too long, and a key
is there twice. -/
theorem Ty.reads_locally_map :
    let type : Ty := .map (.int .u8) (.int .u16)
    let bytes : Bytes := [0x83, 0, 2, 0x85, 0, 1, 7, 2, 9]
    let value : Value := .map [(.int 1, .int 7), (.int 2, .int 9)]
    (∃ input', type.codec.read.exec (InputStream.open (.ofBytes (bytes ++ [4])) 3 0) =
      .ok value input' ∧ input'.pos = 9) ∧
    (∃ input', type.codec.read.exec (InputStream.open (.ofBytes (bytes ++ [0xff, 1])) 2 0) =
      .ok value input' ∧ input'.pos = 9) ∧
    ∃ input', type.codec.read.exec (InputStream.open (.ofBytes (bytes.take 8)) 4 0) =
      .error .endOfStream input' := by
  intro type bytes value
  have ha := InputStream.ahead_ofBytes (bytes ++ [4]) 3 0
  have hdecode : type.codec.decode [0x83, 0, 2, 0x85, 0, 1, 7, 2, 9] = .ok value := rfl
  have hrun : type.codec.read.run (bytes ++ [4]) = .ok (value, [4]) :=
    Decoder.run_eq_ok_iff.mpr ⟨bytes, rfl, hdecode⟩
  obtain ⟨input', h, hat⟩ := exec_front ha hrun
  have hpos : input'.pos = 9 := hat.2.1
  obtain ⟨taken, -, htaken, hothers⟩ := type.reads_locally ha h
  obtain rfl : taken = 9 := by
    have hsame := htaken.2.1
    omega
  obtain ⟨other', hother, hbehind⟩ :=
    (hothers _ 0).1 [0xff, 1] (InputStream.ahead_ofBytes (bytes ++ [0xff, 1]) 2 0)
  exact ⟨⟨input', h, hpos⟩, ⟨other', hother, hbehind.2.1⟩,
    (hothers _ 0).2 8 (by decide) (InputStream.ahead_ofBytes (bytes.take 8) 4 0)⟩

-- ---------------------------------------------------------------------------
-- Layouts
-- ---------------------------------------------------------------------------

theorem faithful_float (precision : Precision) : (floatLayout precision).Faithful :=
  (Layout.faithful_word precision.width).xmap fun _ => rfl

theorem faithful_complex (precision : Precision) : (complexLayout precision).Faithful :=
  ((faithful_float precision).cons
    ((faithful_float precision).cons Layout.faithful_nil)).xmap fun _ => rfl

mutual
theorem Ty.faithful_of_layout : (type : Ty) → {layout : Layout Value} →
    type.layout? = some layout → layout.Faithful
  | .int .u8, _, rfl => (Layout.faithful_octet false).xmap fun _ => rfl
  | .int .i8, _, rfl => (Layout.faithful_octet true).xmap fun _ => rfl
  | .float precision, _, rfl => faithful_float precision
  | .complex precision, _, rfl => faithful_complex precision
  | .array item length, layout, h => by
    simp only [Ty.layout?, Option.map_eq_some_iff] at h
    obtain ⟨inner, hinner, rfl⟩ := h
    exact ((Ty.faithful_of_layout item hinner).array length).xmap fun _ => rfl
  | .record _ true fields, layout, h => by
    simp only [Ty.layout?, Option.map_eq_some_iff] at h
    obtain ⟨inner, hinner, rfl⟩ := h
    exact (Fields.faithful_of_layout fields hinner).xmap fun _ => rfl
theorem Fields.faithful_of_layout : (fields : Fields) → {layout : Layout (List Value)} →
    fields.layout? = some layout → layout.Faithful
  | .nil, _, rfl => Layout.faithful_nil
  | .cons _ type rest, layout, h => by
    simp only [Fields.layout?] at h
    split at h
    · next head tail hhead htail =>
      cases h
      exact (Ty.faithful_of_layout type hhead).cons (Fields.faithful_of_layout rest htail)
    · cases h
end

-- ---------------------------------------------------------------------------
-- Normal forms
-- ---------------------------------------------------------------------------

mutual
/-- There is no map in the type, so the order in which things are put down is fixed. -/
def Ty.MapFree : Ty → Prop
  | .map _ _ | .hashMap _ _ _ => False
  | .option item | .wrapped item | .list item | .array item _ | .grid item _ | .rankedGrid item
  | .fix item => item.MapFree
  | .record _ _ fields => fields.MapFree
  | .union _ alternatives => alternatives.MapFree
  | _ => True
def Fields.MapFree : Fields → Prop
  | .nil => True
  | .cons _ type rest => type.MapFree ∧ rest.MapFree
def Alternatives.MapFree : Alternatives → Prop
  | .nil => True
  | .cons _ fields rest => fields.MapFree ∧ rest.MapFree
end

theorem normalizes_floatCodec {strict : Prop} (precision : Precision) :
    (floatCodec precision).Normalizes strict :=
  (Codec.normalizes_word precision.width).xmap fun _ => rfl

theorem normalizes_complexCodec {strict : Prop} (precision : Precision) :
    (complexCodec precision).Normalizes strict := by
  have hfloat := @normalizes_floatCodec strict precision
  exact ((hfloat.cons (hfloat.cons Codec.normalizes_nil)).xmap fun _ => rfl).bulk
    (image_complex precision) (faithful_complex precision)

mutual
theorem Ty.normalizes_codecIn {strict : Prop} {self : Unit → Codec Value}
    (hself : (self ()).Normalizes strict) :
    (type : Ty) → (strict → type.MapFree) → (type.codecIn self).Normalizes strict
  | .bool, _ => Codec.normalizes_bool.xmap fun _ => rfl
  | .int kind, _ => (Codec.normalizes_int kind).xmap fun _ => rfl
  | .float precision, _ => normalizes_floatCodec precision
  | .complex precision, _ => normalizes_complexCodec precision
  | .string, _ => Codec.normalizes_string.xmap fun _ => rfl
  | .unit, _ => Codec.normalizes_unit.xmap fun _ => rfl
  | .option item, h => by
    refine (Ty.normalizes_codecIn hself item h).option.xmap fun value => ?_
    cases value <;> rfl
  | .wrapped item, h => (Ty.normalizes_codecIn hself item h).wrapped
  | .list item, h => (Ty.normalizes_codecIn hself item h).list.xmap fun _ => rfl
  | .array item length, h => ((Ty.normalizes_codecIn hself item h).array length).xmap fun _ => rfl
  -- With a map in the type nothing is said about the order, so here `strict` is false.
  | .map key value, h =>
    ((Ty.normalizes_codecIn hself key fun hstrict => (h hstrict).elim).assoc
      (Ty.normalizes_codecIn hself value fun hstrict => (h hstrict).elim) h).xmap fun _ => rfl
  | .hashMap order key value, h =>
    ((Ty.normalizes_codecIn hself key fun hstrict => (h hstrict).elim).hashed
      (Ty.normalizes_codecIn hself value fun hstrict => (h hstrict).elim) h order).xmap
        fun _ => rfl
  | .grid item rank, h => ((Ty.normalizes_codecIn hself item h).grid rank).xmap fun _ => rfl
  | .rankedGrid item, h => (Ty.normalizes_codecIn hself item h).rankedGrid.xmap fun _ => rfl
  | .record name packed fields, h => by
    have hplain : (Codec.wrapped ((fields.codecIn self).xmap .record Value.toFields)).Normalizes
        strict := ((Fields.normalizes_codecIn hself fields h).xmap fun _ => rfl).wrapped
    simp only [Ty.codecIn]
    split
    · next layout hlayout =>
      have himage := (@Ty.image_of_layout self _ _ hlayout).1
      simp only [Ty.codecIn, hlayout] at himage
      exact hplain.bulk himage (Ty.faithful_of_layout _ hlayout)
    · exact hplain
  | .union name alternatives, h =>
    (Codec.Normalizes.union (Alternatives.normalizes_codecsIn hself alternatives h) name).xmap
      fun _ => rfl
  | .enum name kind cases, _ =>
    (Codec.normalizes_enum name kind (cases.map (·.2))).xmap fun _ => rfl
  | .fix body, h => Codec.normalizes_unrolled
      (fun _ hinner => Ty.normalizes_codecIn hinner body h) sizeLimit
  | .self, _ => hself.delayed
theorem Fields.normalizes_codecIn {strict : Prop} {self : Unit → Codec Value}
    (hself : (self ()).Normalizes strict) :
    (fields : Fields) → (strict → fields.MapFree) → (fields.codecIn self).Normalizes strict
  | .nil, _ => Codec.normalizes_nil
  | .cons _ type rest, h =>
    (Ty.normalizes_codecIn hself type fun hstrict => (h hstrict).1).cons
      (Fields.normalizes_codecIn hself rest fun hstrict => (h hstrict).2)
theorem Alternatives.normalizes_codecsIn {strict : Prop} {self : Unit → Codec Value}
    (hself : (self ()).Normalizes strict) :
    (alternatives : Alternatives) → (strict → alternatives.MapFree) →
    ∀ codec ∈ alternatives.codecsIn self, codec.Normalizes strict
  | .nil, _, _, hmem => absurd hmem List.not_mem_nil
  | .cons _ fields rest, h, codec, hmem => by
    obtain rfl | hmem := List.mem_cons.mp hmem
    · exact Fields.normalizes_codecIn hself fields fun hstrict => (h hstrict).1
    · exact Alternatives.normalizes_codecsIn hself rest (fun hstrict => (h hstrict).2) codec hmem
end

theorem Ty.normalizes_codec {strict : Prop} (type : Ty) (h : strict → type.MapFree) :
    type.codec.Normalizes strict := Ty.normalizes_codecIn Codec.normalizes_unreachable type h

/-- A value that has been read can be written. What is written is read as the same value, and it is
no longer than what was read before. If there is no map in the type it is the same but for numbers
that had been spelled too long, and hence shorter unless it is the same. (A hash map is written in
the order in which it hands out its entries.) -/
theorem Ty.rewrites (type : Ty) {bytes : Bytes} {value : Value}
    (h : type.codec.decode bytes = .ok value) :
    (∀ {out : OutputStream}, out.sink.limit = none → ∃ out',
      out.putAll (type.codec.writes value) = .ok () out' ∧
        out'.Extends out (type.codec.encode value)) ∧
    type.codec.decode (type.codec.encode value) = .ok value ∧
    (type.codec.encode value).length ≤ bytes.length ∧
    (type.MapFree → Respells (type.codec.encode value) bytes ∧
      ((type.codec.encode value).length = bytes.length → type.codec.encode value = bytes)) := by
  obtain ⟨hread, hshort⟩ := (type.normalizes_codec id).read _ _ h
  refine ⟨fun hlimit => OutputStream.putAll_ok hlimit _, hread, hshort.length_le, fun hfree => ?_⟩
  have hrespells := hshort.respells hfree
  exact ⟨hrespells, hrespells.shortest.2⟩

/-- A map with its count and a value spelled too long, its keys out of order and one of them
twice. -/
theorem Ty.rewrites_map :
    let type : Ty := .map (.int .u8) (.int .u16)
    let value : Value := .map [(.int 1, .int 7), (.int 2, .int 9)]
    type.codec.decode [0x83, 0, 2, 0x85, 0, 1, 7, 2, 9] = .ok value ∧
      type.codec.encode value = [2, 1, 7, 2, 9] ∧
      type.codec.decode [2, 1, 7, 2, 9] = .ok value := by
  intro type value
  have h : type.codec.decode [0x83, 0, 2, 0x85, 0, 1, 7, 2, 9] = .ok value := rfl
  have hencode : type.codec.encode value = [2, 1, 7, 2, 9] := by
    show varint 2 ++ ([1] ++ (varint 7 ++ ([2] ++ (varint 9 ++ [])))) = _
    simp [varint]
  have hagain := (type.rewrites h).2.1
  rw [hencode] at hagain
  exact ⟨h, hencode, hagain⟩

end TypedStream
