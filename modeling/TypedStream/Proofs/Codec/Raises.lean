import TypedStream.Input.Stream
import TypedStream.Run
import TypedStream.Ty

/-!
# Which errors a decoder raises

A decoder stops early for one of two reasons: its input fails, or it raises an error itself. The
codecs of all types raise errors of one sort only: the data is damaged (`Ty.sober_codec`). Over a
buffered stream every failure of such a codec is fatal.
-/

namespace TypedStream

theorem Error.fatal_of_damage {error : Error} (h : error.damage?.isSome) : error.fatal = true := by
  cases error with
  | endOfStream | format => rfl
  | _ => cases h

namespace Decoder

/-- On some input the decoder stops with the error by itself. -/
def Raises (error : Error) : Decoder α → Prop
  | done _ => False
  | fail raised => raised = error
  | need _ next => ∃ bytes, (next bytes).Raises error

/-- The decoder raises no error but that the data is damaged. -/
def Sober (decoder : Decoder α) : Prop := ∀ error, decoder.Raises error → error.damage?.isSome

theorem raises_bind {decoder : Decoder α} {f : α → Decoder β} {error : Error}
    (h : (decoder >>= f).Raises error) :
    decoder.Raises error ∨ ∃ value, (f value).Raises error := by
  replace h : (decoder.bind f).Raises error := h
  induction decoder with
  | done value => exact .inr ⟨value, h⟩
  | fail raised => exact .inl h
  | need count next ih =>
    obtain ⟨bytes, h⟩ := h
    exact (ih bytes h).imp (fun hnext => ⟨bytes, hnext⟩) id

theorem sober_done (value : α) : (done value).Sober := fun _ h => h.elim

theorem sober_pure (value : α) : (pure value : Decoder α).Sober := sober_done value

theorem sober_malformed (cause : Malformed) : (malformed cause : Decoder α).Sober := by
  rintro _ rfl
  rfl

theorem Sober.need {next : Bytes → Decoder α} (h : ∀ bytes, (next bytes).Sober) (count : Nat) :
    (Decoder.need count next).Sober := fun error ⟨bytes, hnext⟩ => h bytes error hnext

theorem Sober.bind {decoder : Decoder α} {f : α → Decoder β} (h : decoder.Sober)
    (hf : ∀ value, (f value).Sober) : (decoder >>= f).Sober := by
  intro error hraises
  rcases raises_bind hraises with hfirst | ⟨value, hrest⟩
  · exact h error hfirst
  · exact hf value error hrest

theorem Sober.map {decoder : Decoder α} (h : decoder.Sober) (f : α → β) : (f <$> decoder).Sober :=
  h.bind fun value => sober_pure (f value)

theorem sober_bytes (count : Nat) : (bytes count).Sober := .need sober_done count

theorem sober_byte : byte.Sober := .need (fun _ => sober_done _) 1

theorem sober_fixed (width : Nat) : (fixed width).Sober := .need (fun _ => sober_done _) width

theorem Sober.times {item : Decoder α} (h : item.Sober) (count : Nat) :
    (item.times count).Sober := by
  suffices ∀ found, (item.collect count found).Sober from this []
  induction count with
  | zero => exact fun found => sober_done found.reverse
  | succ count ih =>
    intro found
    rw [collect_succ]
    exact h.bind fun value => ih (value :: found)

theorem sober_varintGroups (more scale : Nat) : (varintGroups more scale).Sober := by
  induction more generalizing scale with
  | zero =>
    refine sober_byte.bind fun b => ?_
    split
    · exact sober_pure _
    · exact sober_malformed _
  | succ more ih =>
    refine sober_byte.bind fun b => ?_
    split
    · exact sober_pure _
    · exact (ih _).bind fun n => sober_pure _

theorem sober_varint : varint.Sober := sober_varintGroups _ _

theorem sober_zigzag : zigzag.Sober := sober_varint.map _

end Decoder

theorem Layout.sober_run (layout : Layout α) (count : Nat) : (layout.run count).Sober := by
  suffices ∀ found, (layout.collect count found).Sober from this []
  intro found
  fun_induction layout.collect count found with
  | case1 => exact Decoder.sober_done _
  | case2 count found _ now ih => exact .need ih _

-- ---------------------------------------------------------------------------
-- Codecs
-- ---------------------------------------------------------------------------

namespace Codec

open Decoder (sober_pure sober_malformed)

structure Sober (codec : Codec α) : Prop where
  read : codec.read.Sober
  readRun : ∀ count, (codec.readRun count).Sober

theorem sober_single {read : Decoder α} (h : read.Sober) (writes : α → List Bytes) :
    (single writes read).Sober := ⟨h, h.times⟩

theorem Sober.bulk {codec : Codec α} (h : codec.Sober) (layout : Layout α) :
    (codec.bulk layout).Sober := ⟨h.read, layout.sober_run⟩

theorem Sober.xmap {codec : Codec α} (h : codec.Sober) (f : α → β) (g : β → α) :
    (codec.xmap f g).Sober := ⟨h.read.map f, fun count => (h.readRun count).map _⟩

theorem sober_bool : bool.Sober := by
  refine sober_single (Decoder.sober_byte.bind fun b => ?_) _
  split
  · exact sober_pure _
  · exact sober_pure _
  · exact sober_malformed _

theorem sober_intSingle (kind : IntKind) : (intSingle kind).Sober := by
  unfold intSingle
  split
  · exact sober_single ((Decoder.sober_bytes 1).map _) _
  · refine sober_single (Decoder.sober_varint.bind fun n => ?_) _
    split
    · exact sober_pure _
    · exact sober_malformed _
  · refine sober_single (Decoder.sober_zigzag.bind fun v => ?_) _
    split
    · exact sober_pure _
    · exact sober_malformed _

theorem sober_int (kind : IntKind) : (int kind).Sober := by
  unfold int
  split
  · exact (sober_intSingle kind).bulk _
  · exact sober_intSingle kind

theorem sober_word (width : Nat) : (word width).Sober :=
  (sober_single (Decoder.sober_fixed width) _).bulk _

theorem sober_string : string.Sober := by
  refine sober_single (Decoder.sober_varint.bind fun length => ?_) _
  refine (Layout.byte.sober_run length).bind fun bytes => ?_
  split
  · exact sober_pure _
  · exact sober_malformed _

theorem sober_unit : unit.Sober := sober_single (sober_pure ()) _

theorem Sober.option {codec : Codec α} (h : codec.Sober) : codec.option.Sober := by
  refine sober_single (Decoder.sober_byte.bind fun b => ?_) _
  split
  · exact sober_pure _
  · exact h.read.bind fun value => sober_pure _
  · exact sober_malformed _

theorem Sober.wrapped {codec : Codec α} (h : codec.Sober) : codec.wrapped.Sober :=
  sober_single h.read _

theorem Sober.list {codec : Codec α} (h : codec.Sober) : codec.list.Sober :=
  sober_single (Decoder.sober_varint.bind h.readRun) _

theorem Sober.array {codec : Codec α} (h : codec.Sober) (n : Nat) : (codec.array n).Sober where
  read := h.readRun n
  readRun count := by
    show (if count * n < sizeLimit then _ else _ : Decoder _).Sober
    split
    · exact (h.readRun _).map _
    · exact sober_malformed _

theorem Sober.entry {key : Codec κ} {value : Codec α} (hk : key.Sober) (hv : value.Sober) :
    (Codec.entry key value).Sober :=
  sober_single (hk.read.bind fun _ => hv.read.bind fun _ => sober_pure _) _

theorem Sober.assoc [Ord κ] {key : Codec κ} {value : Codec α} (hk : key.Sober) (hv : value.Sober) :
    (Codec.assoc key value).Sober :=
  sober_single (Decoder.sober_varint.bind fun count => ((hk.entry hv).read.times count).map _) _

theorem Sober.hashed [Ord κ] {key : Codec κ} {value : Codec α} (hk : key.Sober)
    (hv : value.Sober) (order : Assoc.HashOrder κ α) : (Codec.hashed order key value).Sober :=
  sober_single ((hk.assoc hv).read.map _) _

theorem Sober.readGrid {codec : Codec α} (h : codec.Sober) (shape : List Nat) :
    (Codec.readGrid codec shape).Sober := by
  unfold Codec.readGrid
  split
  · exact (h.readRun _).map _
  · exact sober_malformed _

theorem Sober.grid {codec : Codec α} (h : codec.Sober) (rank : Nat) :
    (Codec.grid rank codec).Sober :=
  sober_single ((Decoder.sober_varint.times rank).bind h.readGrid) _

theorem Sober.rankedGrid {codec : Codec α} (h : codec.Sober) : (Codec.rankedGrid codec).Sober :=
  sober_single
    (Decoder.sober_varint.bind fun rank => (Decoder.sober_varint.times rank).bind h.readGrid) _

theorem sober_nil : (nil : Codec (List α)).Sober := sober_single (sober_pure []) _

theorem Sober.cons {head : Codec α} {tail : Codec (List α)} (hh : head.Sober) (ht : tail.Sober) :
    (Codec.cons head tail).Sober :=
  sober_single (hh.read.bind fun _ => ht.read.bind fun _ => sober_pure _) _

theorem sober_readIndex (alternatives : Nat) : (readIndex alternatives).Sober := by
  refine Decoder.sober_varint.bind fun index => ?_
  split
  · exact sober_pure _
  · exact sober_malformed _

theorem Sober.union {alternatives : List (Codec α)} (h : ∀ codec ∈ alternatives, codec.Sober)
    (type : String) : (Codec.union type alternatives).Sober := by
  refine sober_single ((sober_readIndex _).bind fun index => ?_) _
  split
  · next codec hcodec =>
    exact (h codec (List.mem_of_getElem? hcodec)).read.bind fun _ => sober_pure _
  · exact sober_malformed _

theorem sober_enum (type : String) (kind : IntKind) (values : List Int) :
    (enum type kind values).Sober := by
  refine sober_single ((sober_int kind).read.bind fun v => ?_) _
  split
  · exact sober_pure _
  · exact sober_malformed _

theorem sober_unreachable : (unreachable : Codec α).Sober := by
  refine sober_single ?_ _
  rintro _ rfl
  rfl

theorem sober_unrolled {body : (Unit → Codec α) → Codec α}
    (h : ∀ inner, (inner ()).Sober → (body inner).Sober) (depth : Nat) :
    (unrolled body depth).Sober := by
  induction depth with
  | zero => exact sober_unreachable
  | succ depth ih => exact h _ ih

theorem Sober.delayed {codec : Unit → Codec α} (h : (codec ()).Sober) : (delayed codec).Sober :=
  ⟨.need (fun _ => h.read) 0, fun count => .need (fun _ => h.readRun count) 0⟩

end Codec

-- ---------------------------------------------------------------------------
-- Types
-- ---------------------------------------------------------------------------

theorem sober_floatCodec (precision : Precision) : (floatCodec precision).Sober :=
  (Codec.sober_word _).xmap _ _

theorem sober_complexCodec (precision : Precision) : (complexCodec precision).Sober :=
  (((sober_floatCodec precision).cons
    ((sober_floatCodec precision).cons Codec.sober_nil)).xmap _ _).bulk _

mutual
theorem Ty.sober_codecIn {self : Unit → Codec Value} (hself : (self ()).Sober) :
    (type : Ty) → (type.codecIn self).Sober
  | .bool => Codec.sober_bool.xmap _ _
  | .int kind => (Codec.sober_int kind).xmap _ _
  | .float precision => sober_floatCodec precision
  | .complex precision => sober_complexCodec precision
  | .string => Codec.sober_string.xmap _ _
  | .unit => Codec.sober_unit.xmap _ _
  | .option item => (Ty.sober_codecIn hself item).option.xmap _ _
  | .wrapped item => (Ty.sober_codecIn hself item).wrapped
  | .list item => (Ty.sober_codecIn hself item).list.xmap _ _
  | .array item length => ((Ty.sober_codecIn hself item).array length).xmap _ _
  | .map key value =>
    ((Ty.sober_codecIn hself key).assoc (Ty.sober_codecIn hself value)).xmap _ _
  | .hashMap order key value =>
    ((Ty.sober_codecIn hself key).hashed (Ty.sober_codecIn hself value) order).xmap _ _
  | .grid item rank => ((Ty.sober_codecIn hself item).grid rank).xmap _ _
  | .rankedGrid item => (Ty.sober_codecIn hself item).rankedGrid.xmap _ _
  | .record name packed fields => by
    have hplain := ((Fields.sober_codecIn hself fields).xmap .record Value.toFields).wrapped
    simp only [Ty.codecIn]
    split
    · exact hplain.bulk _
    · exact hplain
  | .union name alternatives =>
    (Codec.Sober.union (Alternatives.sober_codecsIn hself alternatives) name).xmap _ _
  | .enum name kind cases => (Codec.sober_enum name kind _).xmap _ _
  | .fix body => Codec.sober_unrolled (fun _ hinner => Ty.sober_codecIn hinner body) sizeLimit
  | .self => hself.delayed
theorem Fields.sober_codecIn {self : Unit → Codec Value} (hself : (self ()).Sober) :
    (fields : Fields) → (fields.codecIn self).Sober
  | .nil => Codec.sober_nil
  | .cons _ type rest => (Ty.sober_codecIn hself type).cons (Fields.sober_codecIn hself rest)
theorem Alternatives.sober_codecsIn {self : Unit → Codec Value} (hself : (self ()).Sober) :
    (alternatives : Alternatives) → ∀ codec ∈ alternatives.codecsIn self, codec.Sober
  | .nil => nofun
  | .cons _ fields rest =>
    List.forall_mem_cons.mpr
      ⟨Fields.sober_codecIn hself fields, Alternatives.sober_codecsIn hself rest⟩
end

/-- Whatever bytes it is given, the codec of a type fails only because they are damaged. -/
theorem Ty.sober_codec (type : Ty) : type.codec.Sober :=
  Ty.sober_codecIn Codec.sober_unreachable type

-- ---------------------------------------------------------------------------
-- Buffered streams
-- ---------------------------------------------------------------------------

theorem Error.fatal_ofFault (fault : DeviceFault) : (Error.ofFault fault).fatal = true := by
  cases fault <;> rfl

namespace InputStream

theorem gather_error {wanted : Nat} {found : Bytes} {s s' : InputStream} {error : Error}
    (h : gather wanted found s = .error error s') : error.fatal = true := by
  fun_induction gather wanted found s with
  | case1 => cases h
  | case2 wanted found s _ fault =>
    cases h
    exact Error.fatal_ofFault fault
  | case3 => cases h; rfl
  | case4 _ _ _ _ _ _ _ _ ih => exact ih h

theorem take_error {count : Nat} {s s' : InputStream} {error : Error}
    (h : ByteInput.take count s = .error error s') : error.fatal = true := by
  replace h : take count s = .error error s' := h
  unfold take at h
  split at h
  · cases h
  · split at h
    · cases h
    · next hgather =>
      cases h
      exact gather_error hgather

theorem atEnd_error {s s' : InputStream} {error : Error}
    (h : ByteInput.atEnd s = .error error s') : error.fatal = true := by
  replace h : atEnd s = .error error s' := h
  unfold atEnd at h
  split at h
  · cases h
  · cases h
    exact Error.fatal_ofFault _

end InputStream

/-- A decoder fails on a stream either fatally or with an error of its own. -/
theorem Decoder.exec_error {decoder : Decoder α} {s s' : InputStream} {error : Error}
    (h : decoder.exec s = .error error s') : error.fatal = true ∨ decoder.Raises error := by
  induction decoder generalizing s with
  | done value => cases h
  | fail raised =>
    cases h
    exact .inr rfl
  | need count next ih =>
    simp only [exec] at h
    split at h
    · exact (ih _ h).imp id fun hnext => ⟨_, hnext⟩
    · next htake =>
      cases h
      exact .inl (InputStream.take_error htake)

theorem Decoder.Sober.exec_error {decoder : Decoder α} (hd : decoder.Sober) {s s' : InputStream}
    {error : Error} (h : decoder.exec s = .error error s') : error.fatal = true :=
  (Decoder.exec_error h).elim id fun hraises => Error.fatal_of_damage (hd error hraises)

theorem tryVarint_error {s s' : InputStream} {error : Error}
    (h : tryVarint s = .error error s') : error.fatal = true := by
  rcases bind_error.mp h with hend | ⟨ended, t, -, h⟩
  · exact InputStream.atEnd_error hend
  · cases ended with
    | true => cases h
    | false =>
      rcases bind_error.mp h with hvarint | ⟨n, u, -, h⟩
      · exact Decoder.sober_varint.exec_error hvarint
      · cases h

end TypedStream
