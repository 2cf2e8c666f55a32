import TypedStream.Proofs.Input.Buffered
import TypedStream.Proofs.Output
import TypedStream.Proofs.Ty.Lists
import TypedStream.Proofs.Value.Order

/-!
# The codec of a type carries the values of the type

Where a type has a layout, the image of a value is its encoding, and every value of the type is
laid out (`Ty.image_of_layout`, `Ty.lays_of_layout`). With that, induction on the type shows that
its codec carries its values (`Ty.carries_codecIn`), so a value comes back from its encoding,
whatever stream it went through (`Ty.round_trip`).
-/

namespace TypedStream

-- ---------------------------------------------------------------------------
-- Layouts
-- ---------------------------------------------------------------------------

namespace Layout

theorem Lays.xmap {layout : Layout α} {f : α → β} {g : β → α} {v : β}
    (h : layout.Lays (g v)) (hv : f (g v) = v) : (layout.xmap f g).Lays v :=
  ⟨h.1, (congrArg f h.2).trans hv⟩

theorem Lays.array {layout : Layout α} {vs : List α} (h : ∀ v ∈ vs, layout.Lays v) :
    (layout.array vs.length).Lays vs := by
  refine ⟨length_block h, ?_⟩
  show (layout.split vs.length (layout.block vs) []).reverse = vs
  rw [split_block h, List.append_nil, List.reverse_reverse]

theorem lays_nil : (nil : Layout (List α)).Lays [] := ⟨rfl, rfl⟩

theorem Lays.cons {head : Layout α} {tail : Layout (List α)} {v : α} {vs : List α}
    (hv : head.Lays v) (hvs : tail.Lays vs) : (head.cons tail).Lays (v :: vs) := by
  refine ⟨?_, ?_⟩
  · show (head.image v ++ tail.image vs).length = head.size + tail.size
    rw [List.length_append, hv.1, hvs.1]
  · show head.ofImage ((head.image v ++ tail.image vs).take head.size) ::
      tail.ofImage ((head.image v ++ tail.image vs).drop head.size) = v :: vs
    rw [← hv.1, List.take_left, List.drop_left, hv.2, hvs.2]

end Layout

theorem image_float (precision : Precision) (v : Value) :
    (floatLayout precision).image v = (floatCodec precision).encode v :=
  (List.flatten_singleton ..).symm

theorem lays_float {precision : Precision} {bits : Nat} (h : bits < wordLimit precision.width) :
    (floatLayout precision).Lays (.float bits) :=
  (Codec.lays_word h).xmap rfl

theorem lays_complex {precision : Precision} {re im : Nat} (hre : re < wordLimit precision.width)
    (him : im < wordLimit precision.width) :
    (complexLayout precision).Lays (.record [.float re, .float im]) :=
  Layout.Lays.xmap (g := Value.toFields)
    ((lays_float hre).cons ((lays_float him).cons Layout.lays_nil)) rfl

theorem image_cons {head : Layout Value} {tail : Layout (List Value)} {codec : Codec Value}
    {codecs : Codec (List Value)} (hh : ∀ v, head.image v = codec.encode v)
    (ht : ∀ vs, tail.image vs = codecs.encode vs) (vs : List Value) :
    (head.cons tail).image vs = (Codec.cons codec codecs).encode vs := by
  cases vs with
  | nil => rfl
  | cons v vs =>
    show head.image v ++ tail.image vs = (codec.writes v ++ codecs.writes vs).flatten
    rw [List.flatten_append, hh, ht]
    rfl

theorem image_complex (precision : Precision) (v : Value) :
    (complexLayout precision).image v = (complexCodec precision).encode v :=
  image_cons (image_float precision)
    (image_cons (image_float precision) fun _ => rfl) v.toFields

section
variable {self : Unit → Codec Value}

mutual
theorem Ty.image_of_layout : (type : Ty) → {layout : Layout Value} →
    type.layout? = some layout →
    (∀ v, layout.image v = (type.codecIn self).encode v) ∧
      ∀ vs, layout.block vs = ((type.codecIn self).runWrites vs).flatten
  | .int .u8, _, rfl =>
    ⟨fun v => Codec.intSingle_byte .u8 rfl v.toInt, fun vs => by
      show _ = [(Layout.octet false).block (vs.map Value.toInt)].flatten
      rw [List.flatten_singleton, Layout.block, Layout.block, List.flatMap_map]
      rfl⟩
  | .int .i8, _, rfl =>
    ⟨fun v => Codec.intSingle_byte .i8 rfl v.toInt, fun vs => by
      show _ = [(Layout.octet true).block (vs.map Value.toInt)].flatten
      rw [List.flatten_singleton, Layout.block, Layout.block, List.flatMap_map]
      rfl⟩
  | .float precision, _, rfl =>
    ⟨image_float precision, fun vs => by
      show _ = [(Layout.word precision.width).block (vs.map Value.toBits)].flatten
      rw [List.flatten_singleton, Layout.block, Layout.block, List.flatMap_map]
      rfl⟩
  | .complex precision, _, rfl =>
    ⟨image_complex precision, fun vs => (List.flatten_singleton ..).symm⟩
  | .array item length, layout, h => by
    simp only [Ty.layout?, Option.map_eq_some_iff] at h
    obtain ⟨inner, hinner, rfl⟩ := h
    obtain ⟨_, hblock⟩ := Ty.image_of_layout item hinner
    refine ⟨fun v => hblock v.toItems, fun vs => ?_⟩
    show vs.flatMap (fun v => inner.block v.toItems) =
      ((item.codecIn self).runWrites (vs.map Value.toItems).flatten).flatten
    rw [← hblock, Layout.block, ← List.flatMap_def, List.flatMap_assoc]
    rfl
  | .record name true fields, layout, h => by
    have hlayout := h
    simp only [Ty.layout?, Option.map_eq_some_iff] at h
    obtain ⟨inner, hinner, rfl⟩ := h
    have himage := Fields.image_of_layout fields hinner
    simp only [Ty.codecIn, hlayout]
    exact ⟨fun v => himage v.toFields, fun vs => (List.flatten_singleton ..).symm⟩
theorem Fields.image_of_layout : (fields : Fields) → {layout : Layout (List Value)} →
    fields.layout? = some layout → ∀ vs, layout.image vs = (fields.codecIn self).encode vs
  | .nil, _, rfl => fun _ => rfl
  | .cons _ type rest, layout, h => by
    simp only [Fields.layout?] at h
    split at h
    · next head tail hhead htail =>
      cases h
      exact image_cons (Ty.image_of_layout type hhead).1 (Fields.image_of_layout rest htail)
    · cases h
end

variable {lists : Value → Value → Prop}

mutual
/-- A type with a layout lays every one of its values out, and each has only one form. -/
theorem Ty.lays_of_layout : (type : Ty) → {layout : Layout Value} →
    type.layout? = some layout → ∀ {v w}, type.ListsIn lists v w → v = w ∧ layout.Lays v
  | .int .u8, _, rfl, _, _, ⟨_, hn, rfl, rfl⟩ =>
    ⟨rfl, (Layout.lays_octet .u8 rfl hn).xmap rfl⟩
  | .int .i8, _, rfl, _, _, ⟨_, hn, rfl, rfl⟩ =>
    ⟨rfl, (Layout.lays_octet .i8 rfl hn).xmap rfl⟩
  | .float _, _, rfl, _, _, ⟨_, hbits, rfl, rfl⟩ => ⟨rfl, lays_float hbits⟩
  | .complex _, _, rfl, _, _, ⟨_, _, hre, him, rfl, rfl⟩ =>
    ⟨rfl, lays_complex hre him⟩
  | .array item length, layout, h, v, w, hvw => by
    simp only [Ty.layout?, Option.map_eq_some_iff] at h
    obtain ⟨inner, hinner, rfl⟩ := h
    obtain ⟨vs, ws, hall, rfl, -, -, rfl, rfl⟩ := hvw
    have hitems : List.Forall₂ (fun v w => v = w ∧ inner.Lays v) vs ws :=
      hall.imp fun _ _ hv => Ty.lays_of_layout item hinner hv
    obtain ⟨hsame, hlays⟩ := forall₂_same hitems
    subst hsame
    exact ⟨rfl, (Layout.Lays.array hlays).xmap rfl⟩
  | .record _ true fields, layout, h, v, w, hvw => by
    simp only [Ty.layout?, Option.map_eq_some_iff] at h
    obtain ⟨inner, hinner, rfl⟩ := h
    obtain ⟨vs, ws, hfields, rfl, rfl⟩ := hvw
    obtain ⟨rfl, hlays⟩ := Fields.lays_of_layout fields hinner hfields
    exact ⟨rfl, hlays.xmap rfl⟩
theorem Fields.lays_of_layout : (fields : Fields) → {layout : Layout (List Value)} →
    fields.layout? = some layout → ∀ {vs ws}, fields.ListsIn lists vs ws →
      vs = ws ∧ layout.Lays vs
  | .nil, _, rfl, _, _, ⟨rfl, rfl⟩ => ⟨rfl, Layout.lays_nil⟩
  | .cons _ type rest, layout, h, vs, ws, hvw => by
    simp only [Fields.layout?] at h
    split at h
    · next head tail hhead htail =>
      cases h
      match vs, ws, hvw with
      | _ :: _, _ :: _, ⟨hv, hvs⟩ =>
        obtain ⟨rfl, hlays⟩ := Ty.lays_of_layout type hhead hv
        obtain ⟨rfl, hlays'⟩ := Fields.lays_of_layout rest htail hvs
        exact ⟨rfl, hlays.cons hlays'⟩
    · cases h
end

end

-- ---------------------------------------------------------------------------
-- Every type
-- ---------------------------------------------------------------------------

theorem Alternatives.lt_of_listsIn {self : Unit → Codec Value} {lists : Value → Value → Prop} :
    (alternatives : Alternatives) → {index : Nat} → {vs ws : List Value} →
    alternatives.ListsIn lists index vs ws → index < (alternatives.codecsIn self).length
  | .cons .., 0, _, _, _ => Nat.succ_pos _
  | .cons _ _ rest, _ + 1, _, _, h => Nat.succ_lt_succ (Alternatives.lt_of_listsIn rest h)

theorem floatCodec_carries (precision : Precision) (fits : Nat → Prop) :
    (floatCodec precision).Carries
      (fun v w => ∃ bits, bits < wordLimit precision.width ∧ v = .float bits ∧ w = .float bits)
      fits := by
  refine ((Codec.carries_word precision.width fits).xmap _ _).mono ?_ id
  rintro _ _ ⟨bits, hbits, rfl, rfl⟩
  exact ⟨⟨rfl, hbits⟩, rfl⟩

theorem complexCodec_carries (precision : Precision) (fits : Nat → Prop) :
    (complexCodec precision).Carries
      (fun v w => ∃ re im, re < wordLimit precision.width ∧ im < wordLimit precision.width ∧
        v = .record [.float re, .float im] ∧ w = .record [.float re, .float im]) fits := by
  have hfloat := floatCodec_carries precision fits
  have hplain := (hfloat.cons (hfloat.cons (Codec.carries_nil fits) fits) fits).xmap
    Value.record Value.toFields
  refine (hplain.mono ?_ fun {n} (h : fits n) => h).bulk (image_complex precision) ?_ fits
  · rintro _ _ ⟨re, im, hre, him, rfl, rfl⟩
    exact ⟨⟨⟨re, hre, rfl, rfl⟩, ⟨im, him, rfl, rfl⟩, rfl, rfl⟩, rfl⟩
  · rintro _ _ ⟨re, im, hre, him, rfl, rfl⟩
    exact ⟨rfl, lays_complex hre him⟩

mutual
theorem Ty.carries_codecIn {self : Unit → Codec Value} {lists : Value → Value → Prop}
    (hself : (self ()).Carries lists fun _ => True) :
    (type : Ty) → (type.codecIn self).Carries (type.ListsIn lists) type.RunFits
  | .bool => by
    refine ((Codec.carries_bool _).xmap _ _).mono ?_ id
    rintro _ _ ⟨b, rfl, rfl⟩
    exact ⟨rfl, rfl⟩
  | .int kind => by
    refine ((Codec.carries_int kind _).xmap _ _).mono ?_ id
    rintro _ _ ⟨n, hn, rfl, rfl⟩
    exact ⟨⟨rfl, hn⟩, rfl⟩
  | .float precision => floatCodec_carries precision _
  | .complex precision => complexCodec_carries precision _
  | .string => by
    refine ((Codec.carries_string _).xmap _ _).mono ?_ id
    rintro _ _ ⟨text, ht, rfl, rfl⟩
    exact ⟨⟨rfl, ht⟩, rfl⟩
  | .unit => by
    refine ((Codec.carries_unit _).xmap _ _).mono ?_ id
    rintro _ _ ⟨rfl, rfl⟩
    exact ⟨rfl, rfl⟩
  | .option item => by
    refine (((Ty.carries_codecIn hself item).option _).xmap _ _).mono ?_ id
    rintro _ _ (⟨rfl, rfl⟩ | ⟨v, w, hvw, rfl, rfl⟩)
    · exact ⟨.none, rfl⟩
    · exact ⟨.some hvw, rfl⟩
  | .wrapped item => (Ty.carries_codecIn hself item).wrapped _
  | .list item => by
    refine (((Ty.carries_codecIn hself item).list _).xmap _ _).mono ?_ id
    rintro _ _ ⟨vs, ws, hall, hlen, hfits, rfl, rfl⟩
    exact ⟨⟨hall, hlen, hfits⟩, rfl⟩
  | .array item length => by
    refine (((Ty.carries_codecIn hself item).array length).xmap _ _).mono ?_ id
    rintro _ _ ⟨vs, ws, hall, hlen, -, hfits, rfl, rfl⟩
    exact ⟨⟨hall, hlen, hfits⟩, rfl⟩
  | .map key value => by
    refine (((Ty.carries_codecIn hself key).assoc
      (Ty.carries_codecIn hself value) _).xmap _ _).mono ?_ id
    rintro _ _ ⟨es, fs, hasc, hlen, hall, rfl, rfl⟩
    exact ⟨⟨hasc, hlen, es, .refl es, hall⟩, rfl⟩
  | .hashMap order key value => by
    refine ((((Ty.carries_codecIn hself key).assoc
      (Ty.carries_codecIn hself value) fun _ => True).hashed order _).xmap _ _).mono ?_ id
    rintro _ _ ⟨es, listing, fs, hasc, hlen, hperm, hall, rfl, rfl⟩
    exact ⟨⟨es, rfl, hasc, hlen, listing, hperm, hall⟩, rfl⟩
  | .grid item rank => by
    refine (((Ty.carries_codecIn hself item).grid rank _).xmap _ _).mono ?_ id
    rintro _ _ ⟨shape, vs, ws, ⟨hgrid, hdims, hall, hfits⟩, hrank, rfl, rfl⟩
    exact ⟨⟨hgrid, rfl, hrank, hdims, hall, hfits⟩, rfl⟩
  | .rankedGrid item => by
    refine (((Ty.carries_codecIn hself item).rankedGrid _).xmap _ _).mono ?_ id
    rintro _ _ ⟨shape, vs, ws, ⟨hgrid, hdims, hall, hfits⟩, hrank, rfl, rfl⟩
    exact ⟨⟨hgrid, rfl, hrank, hdims, hall, hfits⟩, rfl⟩
  | .record name packed fields => by
    have hplain : (Codec.wrapped ((fields.codecIn self).xmap .record Value.toFields)).Carries
        ((Ty.record name packed fields).ListsIn lists) fun _ => True := by
      refine (((Fields.carries_codecIn hself fields).xmap _ _).wrapped _).mono ?_ id
      rintro _ _ ⟨vs, ws, hall, rfl, rfl⟩
      exact ⟨hall, rfl⟩
    simp only [Ty.codecIn]
    split
    · next layout hlayout =>
      have himage := (@Ty.image_of_layout self _ _ hlayout).1
      simp only [Ty.codecIn, hlayout] at himage
      exact hplain.bulk himage (Ty.lays_of_layout _ hlayout) _
    · exact hplain
  | .union name alternatives => by
    refine ((Codec.Carries.union (Alternatives.carries_codecsIn hself alternatives)
      name _).xmap _ _).mono ?_ id
    rintro _ _ ⟨index, vs, ws, hsize, hall, rfl, rfl⟩
    exact ⟨⟨rfl, alternatives.lt_of_listsIn hall, hsize, hall⟩, rfl⟩
  | .enum name kind cases => by
    refine ((Codec.carries_enum name kind (cases.map (·.2)) _).xmap _ _).mono ?_ id
    rintro _ _ ⟨place, n, hplace, hfirst, rfl, rfl⟩
    exact ⟨⟨rfl, n, hplace, hfirst⟩, rfl⟩
  | .fix body => Codec.carries_unrolled body.runFits_zero
      (fun _ _ hinner => Ty.carries_codecIn hinner body) sizeLimit
  | .self => hself.delayed
theorem Fields.carries_codecIn {self : Unit → Codec Value} {lists : Value → Value → Prop}
    (hself : (self ()).Carries lists fun _ => True) :
    (fields : Fields) → (fields.codecIn self).Carries (fields.ListsIn lists) fun _ => True
  | .nil => Codec.carries_nil _
  | .cons _ type rest =>
    (Ty.carries_codecIn hself type).cons (Fields.carries_codecIn hself rest) _
theorem Alternatives.carries_codecsIn {self : Unit → Codec Value}
    {lists : Value → Value → Prop} (hself : (self ()).Carries lists fun _ => True) :
    (alternatives : Alternatives) → (index : Nat) → (codec : Codec (List Value)) →
    (alternatives.codecsIn self)[index]? = some codec →
    codec.Carries (alternatives.ListsIn lists index) fun _ => True
  | .cons _ fields _, 0, _, rfl => Fields.carries_codecIn hself fields
  | .cons _ _ rest, index + 1, codec, h =>
    Alternatives.carries_codecsIn hself rest index codec h
end

theorem Ty.carries_codec (type : Ty) : type.codec.Carries type.Lists type.RunFits :=
  Ty.carries_codecIn (Codec.carries_single (fun hv => hv.elim) _) type

/-- Every value of a type can be put down, and reading it takes up its encoding and nothing of what
follows. -/
theorem Ty.round_trip (type : Ty) {value written : Value} (h : type.Lists value written) :
    (∀ out : OutputStream, out.sink.limit = none → ∃ out',
      out.putAll (type.codec.writes written) = .ok () out' ∧
        out'.Extends out (type.codec.encode written)) ∧
    (∀ rest, type.codec.read.run (type.codec.encode written ++ rest) = .ok (value, rest)) ∧
    (∀ (input : InputStream) (pos : Nat) (rest : Bytes),
      Lossless.Ahead input pos (type.codec.encode written ++ rest) → ∃ input',
        type.codec.read.exec input = .ok value input' ∧
          Lossless.Ahead input' (pos + (type.codec.encode written).length) rest) ∧
    type.codec.decode (type.codec.encode written) = .ok value := by
  have hread := type.carries_codec.read h
  refine ⟨?_, hread, ?_, ?_⟩
  · intro out hlimit
    exact OutputStream.putAll_ok hlimit _
  · intro input pos rest ha
    exact exec_front ha (hread rest)
  · have hr := hread []
    rw [List.append_nil] at hr
    simp only [Codec.decode, Decoder.runAll, hr]

/-- A hash map with nested values, listed in the order of its keys and read in the opposite one. One
of the keys has a number that only its cast fits in. -/
theorem Ty.round_trip_hashMap :
    let keys : Ty := .enum "Size" .i32 [("One", 1), ("Two", 4294967298)]
    let type : Ty := .hashMap ⟨List.reverse, List.reverse_perm⟩ keys (.fix (.option .self))
    let value : Value := .map [(.variant 1 [], .present .absent), (.variant 0 [], .absent)]
    let written : Value := .map [(.variant 0 [], .absent), (.variant 1 [], .present .absent)]
    type.Lists value written ∧ type.codec.decode (type.codec.encode written) = .ok value := by
  intro keys type value written
  have hfits : ∀ count, (Ty.option .self).RunFits count := fun _ => trivial
  have habsent : (Ty.fix (.option .self)).Lists .absent .absent := ⟨hfits, .inl ⟨rfl, rfl⟩⟩
  have hpresent : (Ty.fix (.option .self)).Lists (.present .absent) (.present .absent) :=
    ⟨hfits, .inr ⟨.absent, .absent, .inl ⟨rfl, rfl⟩, rfl, rfl⟩⟩
  have h : type.Lists value written := by
    let entries : List (Value × Value) :=
      [(.variant 0 [], .absent), (.variant 1 [], .present .absent)]
    refine ⟨entries, entries, entries, ⟨by decide, trivial⟩, by decide, .refl _, ?_, rfl, rfl⟩
    exact .cons ⟨⟨0, 1, rfl, by decide, rfl, rfl⟩, habsent⟩
      (.cons ⟨⟨1, 4294967298, rfl, by decide, rfl, rfl⟩, hpresent⟩ .nil)
  exact ⟨h, (type.round_trip h).2.2.2⟩

/-- Two cases with numbers that a cast to the integer type does not tell apart: the second one is
read as the first. -/
theorem Ty.enum_read_as_first :
    let type : Ty := .enum "Size" .i32 [("Zero", 0), ("Big", 4294967296)]
    type.codec.encode (.variant 1 []) = [0] ∧
      type.codec.decode (type.codec.encode (.variant 1 [])) = .ok (.variant 0 []) ∧
      Value.variant 0 [] ≠ .variant 1 [] := by
  intro type
  have hencode : type.codec.encode (.variant 1 []) = [0] := by decide +kernel
  refine ⟨hencode, ?_, by simp⟩
  rw [hencode]
  rfl

end TypedStream
