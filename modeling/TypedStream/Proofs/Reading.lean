import TypedStream.Reader.Progress
import TypedStream.Proofs.Header
import TypedStream.Proofs.Input.Lossless
import TypedStream.Proofs.Script

/-!
# Reading what has been written

What each operation of a reader does where the bytes ahead are those of a part. Inside a stream
the bytes ahead are the items left in the open block, then the batches to come, then the end of
the stream (`Reader.Inside`). Every read keeps this form; how many blocks it crosses does not show.
-/

namespace TypedStream

open Lossless (Ahead)

/-- A reader at this place goes on with step `i`. -/
def ReadPlace.Faces (place : ReadPlace) (i : Nat) : Prop :=
  place = .at i ∨ ∃ before, place = .drained before ∧ before + 1 = i

namespace Datum

theorem read_run (datum : Datum type) (rest : Bytes) :
    type.codec.read.run (datum.bytes ++ rest) = .ok (datum.value, rest) :=
  type.carries_codec.read datum.lists rest

theorem readRun_run (data : List (Datum type)) (h : type.RunFits data.length) (rest : Bytes) :
    (type.codec.readRun data.length).run (data.flatMap bytes ++ rest) =
      .ok (data.map value, rest) := by
  have hall : List.Forall₂ type.Lists (data.map value) (data.map written) := by
    rw [List.forall₂_map_left_iff, List.forall₂_map_right_iff, List.forall₂_same]
    exact fun datum _ => datum.lists
  have hr := type.carries_codec.readRun hall (by rwa [List.length_map]) rest
  rw [List.length_map, List.flatMap_map] at hr
  exact hr

/-- The decoder makes of each datum a value that `R` says it stands for, and so it does of runs. -/
structure Reads (R : Datum type → α → Prop) (codec : Codec α) (decoder : StepDecoder α) : Prop where
  one : R datum v → ∀ rest, (decoder.one codec).run (datum.bytes ++ rest) = .ok (v, rest)
  many : List.Forall₂ R data values → type.RunFits data.length → ∀ rest,
    (decoder.many codec data.length).run (data.flatMap bytes ++ rest) = .ok (values, rest)

theorem reads_current (type : Ty) :
    Reads (fun (datum : Datum type) v => datum.value = v) type.codec .current where
  one := by
    rintro datum _ rfl rest
    exact datum.read_run rest
  many := by
    intro data values hvalues hfits rest
    obtain rfl : data.map value = values := by
      rwa [← List.forall₂_eq_eq_eq, List.forall₂_map_left_iff]
    exact Datum.readRun_run data hfits rest

theorem reads_legacy {R : Datum type → α → Prop} {read : Decoder α}
    (h : ∀ {datum v}, R datum v → ∀ rest,
      read.run (datum.bytes ++ rest) = .ok (v, rest)) (codec : Codec α) :
    Reads R codec (.legacy read) where
  one := h
  many := by
    intro data values hvalues _ rest
    have hruns : List.Forall₂ (fun v w => ∀ rest, read.run (bytes w ++ rest) = .ok (v, rest))
        values data := (hvalues.imp fun _ _ hv => h hv).flip
    rw [hvalues.length_eq]
    exact Decoder.run_times hruns rest

end Datum

namespace Reader

variable {σ : Type}

theorem onInput_run {act : EStateM Error σ α} {r : Reader σ} {value : α} {input : σ}
    (h : act r.input = .ok value input) : onInput act r = .ok value { r with input } := by
  simp only [onInput, h]

theorem onInput_error {act : EStateM Error σ α} {r : Reader σ} {error : Error} {input : σ}
    (h : act r.input = .error error input) : onInput act r = .error error { r with input } := by
  simp only [onInput, h]

-- ---------------------------------------------------------------------------
-- Order
-- ---------------------------------------------------------------------------

section
variable {r : Reader σ} {protocol : Protocol} {i : Nat} {name : String} {kind : StepKind}

theorem authorize_run (hp : r.order.protocol = protocol)
    (h : protocol.steps[i]? = some ⟨name, kind⟩) : authorize i kind r = .ok () r := by
  have hstep : r.order.protocol.stepOfKind i kind = .ok ⟨name, kind⟩ := by
    simp only [Protocol.stepOfKind, Protocol.step?, hp, h, if_true]
  simp only [authorize, require, hstep]
  rfl

theorem beginScalar_run {place : ReadPlace} (ho : r.order = ⟨protocol, place⟩)
    (h : place.Faces i) : beginScalar i r = .ok () { r with order := ⟨protocol, .at i⟩ } := by
  rcases h with rfl | ⟨before, rfl, rfl⟩ <;> simp [beginScalar, ReadOrder.beginScalar, ho]

theorem beginStream_run {place : ReadPlace} (ho : r.order = ⟨protocol, place⟩)
    (h : place.Faces i) :
    beginStream i r = .ok .proceed { r with order := ⟨protocol, .at i⟩ } := by
  rcases h with rfl | ⟨before, rfl, rfl⟩ <;> simp [beginStream, ReadOrder.beginStream, ho]

theorem beginStream_drained (ho : r.order = ⟨protocol, .drained i⟩) :
    beginStream i r = .ok .finished { r with order := ⟨protocol, .at (i + 1)⟩ } := by
  simp [beginStream, ReadOrder.beginStream, ho]

theorem readItem_facing [ByteInput σ] {place : ReadPlace}
    (hstep : protocol.steps[i]? = some ⟨name, .stream⟩) (ho : r.order = ⟨protocol, place⟩)
    (hfaces : place.Faces i) (codec : Codec α) (decoder : StepDecoder α) :
    readItem codec decoder i r =
      (ensureBlock >>= fun _ => takeItem codec decoder i)
        { r with order := ⟨protocol, .at i⟩ } := by
  have hp : r.order.protocol = protocol := by rw [ho]
  simp only [readItem, bind, EStateM.bind, authorize_run hp hstep, beginStream_run ho hfaces]

end

variable [ByteInput σ] [Lossless σ]

-- ---------------------------------------------------------------------------
-- Scalars
-- ---------------------------------------------------------------------------

/-- The reader goes on with step `i` at a position with these bytes ahead. -/
structure Before (r : Reader σ) (protocol : Protocol) (i pos : Nat) (bytes : Bytes) : Prop where
  order : ∃ place, r.order = ⟨protocol, place⟩ ∧ place.Faces i
  remaining : r.remaining = 0
  ahead : Ahead r.input pos bytes

theorem open_version {protocol : Protocol} {schema : String} {version : Nat} {input : σ} {pos : Nat}
    {tail : Bytes} (hschema : (utf8 schema).length ≤ Header.maxSchemaBytes)
    (hversion : protocol.versionOf schema = .ok version)
    (h : Ahead input pos (Header.bytes schema ++ tail)) :
    ∃ r, Reader.open protocol input = .ok r ∧ r.version = version ∧
      r.Before protocol 0 (pos + (Header.bytes schema).length) tail := by
  obtain ⟨input', hinput, hahead⟩ := exec_front h (Header.run_read hschema tail)
  refine ⟨{ input := input', order := { protocol }, version }, ?_, rfl, ⟨_, rfl, .inl rfl⟩, rfl,
    hahead⟩
  simp only [Reader.open, hinput, Header.ofSchema, hversion]

theorem open_run {protocol : Protocol} {input : σ} {pos : Nat} {tail : Bytes}
    (hschema : (utf8 protocol.schema).length ≤ Header.maxSchemaBytes)
    (h : Ahead input pos (Header.bytes protocol.schema ++ tail)) :
    ∃ r, Reader.open protocol input = .ok r ∧
      r.Before protocol 0 (pos + (Header.bytes protocol.schema).length) tail := by
  obtain ⟨version, hversion⟩ := protocol.versionOf_schema
  obtain ⟨r, hr, -, hbefore⟩ := open_version hschema hversion h
  exact ⟨r, hr, hbefore⟩

theorem readStep_reads {r : Reader σ} {protocol : Protocol} {i pos : Nat} {name : String}
    {datum : Datum type} {tail : Bytes} (hstep : protocol.steps[i]? = some ⟨name, .scalar⟩)
    (h : r.Before protocol i pos (datum.bytes ++ tail)) {codec : Codec α}
    {decoder : StepDecoder α} {value : α}
    (hread : (decoder.one codec).run (datum.bytes ++ tail) = .ok (value, tail)) :
    ∃ r', readStep codec decoder i r = .ok value r' ∧
      r'.order = ⟨protocol, .at (i + 1)⟩ ∧
      r'.Before protocol (i + 1) (pos + datum.bytes.length) tail := by
  obtain ⟨place, ho, hfaces⟩ := h.order
  obtain ⟨input, hinput, hahead⟩ := exec_front h.ahead hread
  refine ⟨{ r with order := ⟨protocol, .at (i + 1)⟩, input }, ?_, rfl,
    ⟨_, rfl, .inl rfl⟩, h.remaining, hahead⟩
  refine bind_ok.mpr ⟨(), r, authorize_run (by rw [ho]) hstep, ?_⟩
  refine bind_ok.mpr ⟨(), _, beginScalar_run ho hfaces, ?_⟩
  exact bind_ok.mpr ⟨_, _, onInput_run hinput, rfl⟩

theorem readStep_run {r : Reader σ} {protocol : Protocol} {i pos : Nat} {name : String}
    {datum : Datum type} {tail : Bytes} (hstep : protocol.steps[i]? = some ⟨name, .scalar⟩)
    (h : r.Before protocol i pos (datum.bytes ++ tail)) :
    ∃ r', readStep type.codec .current i r = .ok datum.value r' ∧
      r'.order = ⟨protocol, .at (i + 1)⟩ ∧
      r'.Before protocol (i + 1) (pos + datum.bytes.length) tail :=
  readStep_reads hstep h (datum.read_run tail)

-- ---------------------------------------------------------------------------
-- Blocks
-- ---------------------------------------------------------------------------

/-- What ends a stream and leaves `tail`: a block of no items, or the end of the input. -/
def StreamEnd (ending tail : Bytes) : Prop := ending = varint 0 ++ tail ∨ ending = [] ∧ tail = []

/-- The items of `run` are left of the open block, `batches` follow and then the end of the
stream. Behind it, at position `stop`, comes `tail`. -/
structure Inside (r : Reader σ) (run : List (Datum type)) (batches : List (Batch type))
    (stop : Nat) (tail : Bytes) : Prop where
  remaining : r.remaining = run.length
  fits : type.RunFits run.length
  ahead : ∃ pos ending, StreamEnd ending tail ∧
    pos + (run.flatMap Datum.bytes ++ (batches.flatMap Batch.bytes ++ ending)).length =
      stop + tail.length ∧
    Ahead r.input pos (run.flatMap Datum.bytes ++ (batches.flatMap Batch.bytes ++ ending))

/-- A count has been read: a block is open, or the stream has ended. -/
inductive Primed (r : Reader σ) (data : List (Datum type)) (stop : Nat) (tail : Bytes) : Prop
  | block {run batches} (ne : run ≠ []) (data_eq : data = run ++ Batch.items batches)
    (inside : r.Inside run batches stop tail)
  | ended (data_eq : data = []) (remaining : r.remaining = 0) (ahead : Ahead r.input stop tail)

/-- Reading the next count, past batches of no items, which have left no trace. -/
theorem nextBlock_run {r : Reader σ} {batches : List (Batch type)} {stop : Nat} {tail : Bytes}
    (h : r.Inside [] batches stop tail) :
    ∃ r', nextBlock r = .ok () r' ∧ r'.order = r.order ∧
      r'.Primed (Batch.items batches) stop tail := by
  obtain ⟨pos, ending, hend, hstop, hahead⟩ := h.ahead
  rw [List.flatMap_nil, List.nil_append] at hstop hahead
  clear h
  induction batches with
  | nil =>
    rw [List.flatMap_nil, List.nil_append] at hstop hahead
    rcases hend with rfl | ⟨rfl, rfl⟩
    · have hrun := Decoder.run_varint (show 0 < sizeLimit by decide) tail
      obtain ⟨input, hinput, ha⟩ := tryVarint_front (varint_ne_nil 0) hahead hrun
      have hpos : pos + (varint 0).length = stop := by
        rw [List.length_append] at hstop
        omega
      rw [hpos] at ha
      refine ⟨{ r with input, remaining := 0 }, ?_, rfl, .ended rfl rfl ha⟩
      simp only [nextBlock, hinput, Option.getD_some]
    · obtain ⟨input, hinput, ha⟩ := tryVarint_nil hahead
      obtain rfl : pos = stop := hstop
      refine ⟨{ r with input, remaining := 0 }, ?_, rfl, .ended rfl rfl ha⟩
      simp only [nextBlock, hinput, Option.getD_none]
  | cons batch batches ih =>
    rw [List.flatMap_cons, List.append_assoc] at hstop hahead
    by_cases hdata : batch.data = []
    · rw [Batch.bytes_nil hdata, List.nil_append] at hstop hahead
      rw [Batch.items_nil hdata]
      exact ih hstop hahead
    · rw [Batch.bytes_eq hdata, List.append_assoc] at hstop hahead
      have hrun := Decoder.run_varint batch.short
        (batch.data.flatMap Datum.bytes ++ (batches.flatMap Batch.bytes ++ ending))
      obtain ⟨input, hinput, ha⟩ := tryVarint_front (varint_ne_nil _) hahead hrun
      refine ⟨{ r with input, remaining := batch.data.length }, ?_, rfl,
        .block hdata rfl ⟨rfl, batch.fits, _, ending, hend, ?_, ha⟩⟩
      · simp only [nextBlock, hinput, Option.getD_some]
      · rw [← hstop, Nat.add_assoc, ← List.length_append]

theorem ensureBlock_run {r : Reader σ} {run : List (Datum type)} {batches : List (Batch type)}
    {stop : Nat} {tail : Bytes} (h : r.Inside run batches stop tail) :
    ∃ r', ensureBlock r = .ok () r' ∧ r'.order = r.order ∧
      r'.Primed (run ++ Batch.items batches) stop tail := by
  unfold ensureBlock
  rw [h.remaining]
  cases run with
  | nil => exact nextBlock_run h
  | cons datum run => exact ⟨r, rfl, rfl, .block (List.cons_ne_nil _ _) rfl h⟩

-- ---------------------------------------------------------------------------
-- Items
-- ---------------------------------------------------------------------------

/-- Between two reads of stream `i`, with `data` still to come. -/
inductive Streaming (r : Reader σ) (protocol : Protocol) (i : Nat) (data : List (Datum type))
    (stop : Nat) (tail : Bytes) : Prop
  | inside {place run batches} (order : r.order = ⟨protocol, place⟩) (faces : place.Faces i)
    (data_eq : data = run ++ Batch.items batches) (inside : r.Inside run batches stop tail)
  | drained (order : r.order = ⟨protocol, .drained i⟩) (data_eq : data = [])
    (remaining : r.remaining = 0) (ahead : Ahead r.input stop tail)

theorem Before.streaming {r : Reader σ} {protocol : Protocol} {i pos stop : Nat}
    {batches : List (Batch type)} {ending tail : Bytes}
    (h : r.Before protocol i pos (batches.flatMap Batch.bytes ++ ending))
    (hend : StreamEnd ending tail)
    (hstop : pos + (batches.flatMap Batch.bytes ++ ending).length = stop + tail.length) :
    r.Streaming protocol i (Batch.items batches) stop tail := by
  obtain ⟨place, ho, hfaces⟩ := h.order
  have hinside : r.Inside [] batches stop tail :=
    ⟨h.remaining, Ty.runFits_zero type, pos, ending, hend, hstop, h.ahead⟩
  exact .inside ho hfaces rfl hinside

theorem Before.streaming_bytes {r : Reader σ} {protocol : Protocol} {i pos : Nat}
    {batches : List (Batch type)} {tail : Bytes}
    (h : r.Before protocol i pos (Batch.streamBytes batches ++ tail)) :
    r.Streaming protocol i (Batch.items batches) (pos + (Batch.streamBytes batches).length)
      tail := by
  rw [Batch.streamBytes, List.append_assoc] at h
  refine h.streaming (.inl rfl) ?_
  simp only [Batch.streamBytes, List.length_append]
  omega

theorem Inside.with_order {r : Reader σ} {run : List (Datum type)} {batches : List (Batch type)}
    {stop : Nat} {tail : Bytes} (h : r.Inside run batches stop tail) (order : ReadOrder) :
    Inside { r with order } run batches stop tail := ⟨h.remaining, h.fits, h.ahead⟩

theorem Inside.take {r : Reader σ} {run : List (Datum type)} {batches : List (Batch type)}
    {stop : Nat} {tail : Bytes} (h : r.Inside run batches stop tail) (now : Nat) :
    ∃ pos rest, Ahead r.input pos ((run.take now).flatMap Datum.bytes ++ rest) ∧
      ∀ input : σ, Ahead input (pos + ((run.take now).flatMap Datum.bytes).length) rest →
        Inside { r with input, remaining := r.remaining - now } (run.drop now) batches stop
          tail := by
  obtain ⟨pos, ending, hend, hstop, hahead⟩ := h.ahead
  rw [flatMap_split Datum.bytes run now, List.append_assoc] at hstop hahead
  refine ⟨pos, _, hahead, fun input ha => ⟨?_, ?_, _, ending, hend, ?_, ha⟩⟩
  · rw [List.length_drop, h.remaining]
  · refine h.fits.mono ?_
    rw [List.length_drop]
    exact Nat.sub_le _ _
  · rw [← hstop, Nat.add_assoc, ← List.length_append]

theorem takeItem_ended {r : Reader σ} {stop : Nat} {tail : Bytes}
    (h : r.Primed ([] : List (Datum type)) stop tail) (codec : Codec α) (decoder : StepDecoder α)
    (i : Nat) :
    takeItem codec decoder i r = .ok none { r with order := r.order.finish i } ∧
      r.remaining = 0 ∧ Ahead r.input stop tail := by
  cases h with
  | block hne hdata => exact absurd (List.append_eq_nil_iff.mp hdata.symm).1 hne
  | ended _ hrem hahead => exact ⟨by simp only [takeItem, hrem, if_true], hrem, hahead⟩

/-- The next item lies ahead, with the rest of its block and the batches to come behind it. -/
theorem Primed.next {r : Reader σ} {datum : Datum type} {data : List (Datum type)} {stop : Nat}
    {tail : Bytes} (h : r.Primed (datum :: data) stop tail) :
    r.remaining ≠ 0 ∧ ∃ pos rest, Ahead r.input pos (datum.bytes ++ rest) ∧
      ∀ input : σ, Ahead input (pos + datum.bytes.length) rest →
        ∃ run batches, data = run ++ Batch.items batches ∧
          Inside { r with input, remaining := r.remaining - 1 } run batches stop tail := by
  cases h with
  | ended hdata => cases hdata
  | @block run batches hne hdata hinside =>
    obtain ⟨first, run, rfl⟩ := List.exists_cons_of_ne_nil hne
    cases hdata
    obtain ⟨pos, rest, hahead, hback⟩ := hinside.take 1
    have hone : [datum].flatMap Datum.bytes = datum.bytes := List.append_nil _
    simp only [List.take_succ_cons, List.take_zero, List.drop_succ_cons, List.drop_zero, hone]
      at hahead hback
    refine ⟨?_, pos, rest, hahead, fun input ha => ⟨run, batches, rfl, hback input ha⟩⟩
    rw [hinside.remaining]
    exact Nat.succ_ne_zero _

theorem takeItem_reads {r : Reader σ} {datum : Datum type} {data : List (Datum type)}
    {stop : Nat} {tail : Bytes} (h : r.Primed (datum :: data) stop tail) {codec : Codec α}
    {decoder : StepDecoder α} {value : α}
    (hread : ∀ rest, (decoder.one codec).run (datum.bytes ++ rest) = .ok (value, rest)) (i : Nat) :
    ∃ r', takeItem codec decoder i r = .ok (some value) r' ∧ r'.order = r.order ∧
      ∃ run batches, data = run ++ Batch.items batches ∧ r'.Inside run batches stop tail := by
  obtain ⟨hrem, pos, rest, hahead, hback⟩ := h.next
  obtain ⟨input, hinput, ha⟩ := exec_front hahead (hread rest)
  have hitem : onInput (decoder.one codec).exec r = .ok value { r with input } := onInput_run hinput
  refine ⟨{ r with input, remaining := r.remaining - 1 }, ?_, rfl, hback input ha⟩
  simp only [takeItem, if_neg hrem, hitem]

theorem takeItem_fails {r : Reader σ} {datum : Datum type} {data : List (Datum type)}
    {stop : Nat} {tail : Bytes} (h : r.Primed (datum :: data) stop tail) {codec : Codec α}
    {decoder : StepDecoder α} {error : Error}
    (hread : ∀ rest, (decoder.one codec).run (datum.bytes ++ rest) = .error error) (i : Nat) :
    ∃ r', takeItem codec decoder i r = .error error r' := by
  obtain ⟨hrem, pos, rest, hahead, -⟩ := h.next
  obtain ⟨input, hinput⟩ := exec_of_run_error hahead (hread rest)
  have hitem : onInput (decoder.one codec).exec r = .error error { r with input } :=
    onInput_error hinput
  refine ⟨{ r with input }, ?_⟩
  simp only [takeItem, if_neg hrem, hitem]

/-- A read of an item of a stream with items left: it finds a block and takes from it. -/
theorem readItem_primed {r : Reader σ} {protocol : Protocol} {i : Nat} {name : String}
    {datum : Datum type} {data : List (Datum type)} {stop : Nat} {tail : Bytes}
    (hstep : protocol.steps[i]? = some ⟨name, .stream⟩)
    (h : r.Streaming protocol i (datum :: data) stop tail) (codec : Codec α)
    (decoder : StepDecoder α) :
    ∃ r', readItem codec decoder i r = takeItem codec decoder i r' ∧
      r'.order = ⟨protocol, .at i⟩ ∧ r'.Primed (datum :: data) stop tail := by
  cases h with
  | drained _ hdata => cases hdata
  | inside ho hfaces hdata hinside =>
    obtain ⟨r₁, h₁, ho₁, hprimed⟩ := ensureBlock_run (hinside.with_order ⟨protocol, .at i⟩)
    rw [← hdata] at hprimed
    refine ⟨r₁, ?_, ho₁, hprimed⟩
    rw [readItem_facing hstep ho hfaces]
    simp only [bind, EStateM.bind, h₁]

theorem readItem_reads {r : Reader σ} {protocol : Protocol} {i : Nat} {name : String}
    {datum : Datum type} {data : List (Datum type)} {stop : Nat} {tail : Bytes}
    (hstep : protocol.steps[i]? = some ⟨name, .stream⟩)
    (h : r.Streaming protocol i (datum :: data) stop tail) {codec : Codec α}
    {decoder : StepDecoder α} {value : α}
    (hread : ∀ rest, (decoder.one codec).run (datum.bytes ++ rest) = .ok (value, rest)) :
    ∃ r', readItem codec decoder i r = .ok (some value) r' ∧
      r'.Streaming protocol i data stop tail := by
  obtain ⟨r₁, h₁, ho₁, hprimed⟩ := readItem_primed hstep h codec decoder
  obtain ⟨r₂, h₂, ho₂, run, batches, hdata, hinside⟩ := takeItem_reads hprimed hread i
  exact ⟨r₂, h₁.trans h₂, .inside (ho₂.trans ho₁) (.inl rfl) hdata hinside⟩

theorem readItem_run {r : Reader σ} {protocol : Protocol} {i : Nat} {name : String}
    {datum : Datum type} {data : List (Datum type)} {stop : Nat} {tail : Bytes}
    (hstep : protocol.steps[i]? = some ⟨name, .stream⟩)
    (h : r.Streaming protocol i (datum :: data) stop tail) :
    ∃ r', readItem type.codec .current i r = .ok (some datum.value) r' ∧
      r'.Streaming protocol i data stop tail := readItem_reads hstep h datum.read_run

theorem readItem_fails {r : Reader σ} {protocol : Protocol} {i : Nat} {name : String}
    {datum : Datum type} {data : List (Datum type)} {stop : Nat} {tail : Bytes}
    (hstep : protocol.steps[i]? = some ⟨name, .stream⟩)
    (h : r.Streaming protocol i (datum :: data) stop tail) {codec : Codec α}
    {decoder : StepDecoder α} {error : Error}
    (hread : ∀ rest, (decoder.one codec).run (datum.bytes ++ rest) = .error error) :
    ∃ r', readItem codec decoder i r = .error error r' := by
  obtain ⟨r₁, h₁, -, hprimed⟩ := readItem_primed hstep h codec decoder
  obtain ⟨r₂, h₂⟩ := takeItem_fails hprimed hread i
  exact ⟨r₂, h₁.trans h₂⟩

theorem readItem_ended {r : Reader σ} {protocol : Protocol} {i : Nat} {name : String} {stop : Nat}
    {tail : Bytes} (hstep : protocol.steps[i]? = some ⟨name, .stream⟩)
    (h : r.Streaming protocol i ([] : List (Datum type)) stop tail) (codec : Codec α)
    (decoder : StepDecoder α) :
    ∃ r', readItem codec decoder i r = .ok none r' ∧ r'.order = ⟨protocol, .at (i + 1)⟩ ∧
      r'.Before protocol (i + 1) stop tail := by
  cases h with
  | drained ho _ hrem hahead =>
    refine ⟨{ r with order := ⟨protocol, .at (i + 1)⟩ }, ?_, rfl, ⟨_, rfl, .inl rfl⟩, hrem, hahead⟩
    refine bind_ok.mpr ⟨(), r, authorize_run (by rw [ho]) hstep, ?_⟩
    exact bind_ok.mpr ⟨.finished, _, beginStream_drained ho, rfl⟩
  | inside ho hfaces hdata hinside =>
    obtain ⟨r₁, h₁, ho₁, hprimed⟩ := ensureBlock_run (hinside.with_order ⟨protocol, .at i⟩)
    rw [← hdata] at hprimed
    obtain ⟨h₂, hrem, hahead⟩ := takeItem_ended hprimed codec decoder i
    have hfinish : r₁.order.finish i = ⟨protocol, .at (i + 1)⟩ := by
      rw [ho₁]
      rfl
    rw [hfinish] at h₂
    rw [readItem_facing hstep ho hfaces]
    exact ⟨{ r₁ with order := ⟨protocol, .at (i + 1)⟩ }, bind_ok.mpr ⟨(), r₁, h₁, h₂⟩, rfl,
      ⟨_, rfl, .inl rfl⟩, hrem, hahead⟩

theorem readItem_end {r : Reader σ} {protocol : Protocol} {i : Nat} {name : String} {stop : Nat}
    {tail : Bytes} (hstep : protocol.steps[i]? = some ⟨name, .stream⟩)
    (h : r.Streaming protocol i ([] : List (Datum type)) stop tail) :
    ∃ r', readItem type.codec .current i r = .ok none r' ∧ r'.order = ⟨protocol, .at (i + 1)⟩ ∧
      r'.Before protocol (i + 1) stop tail := readItem_ended hstep h type.codec .current

-- ---------------------------------------------------------------------------
-- Batches
-- ---------------------------------------------------------------------------

section
variable {R : Datum type → α → Prop} {codec : Codec α} {decoder : StepDecoder α}

theorem readMany_reads {r : Reader σ} {run : List (Datum type)} {batches : List (Batch type)}
    {stop : Nat} {tail : Bytes} (h : r.Inside run batches stop tail)
    (hreads : Datum.Reads R codec decoder) {now : Nat} (hnow : now ≤ run.length) {values : List α}
    (hvalues : List.Forall₂ R (run.take now) values) :
    ∃ input, onInput (decoder.many codec now).exec r = .ok values { r with input } ∧
      Inside { r with input, remaining := r.remaining - now } (run.drop now) batches stop tail := by
  obtain ⟨pos, rest, hahead, hback⟩ := h.take now
  have hlen : (run.take now).length = now := List.length_take_of_le hnow
  have hrun := hreads.many hvalues (by rw [hlen]; exact h.fits.mono hnow) rest
  rw [hlen] at hrun
  obtain ⟨input, hinput, ha⟩ := exec_front hahead hrun
  exact ⟨input, onInput_run hinput, hback input ha⟩

/-- As many items as there is room for, from however many blocks. -/
theorem fillItems_reads {r : Reader σ} {data : List (Datum type)} {values : List α} {stop : Nat}
    {tail : Bytes} (h : r.Primed data stop tail) (hreads : Datum.Reads R codec decoder)
    (hvalues : List.Forall₂ R data values) (room : Nat) (found : List α) :
    ∃ r', fillItems codec decoder room found r = (.ok () r', found ++ values.take room) ∧
      r'.order = r.order ∧ r'.Primed (data.drop room) stop tail := by
  -- Each turn takes at least one item, so the induction is on the room left.
  induction room using Nat.strongRecOn generalizing r data values found with
  | ind room ih =>
    unfold fillItems
    split
    · next hstop =>
      rcases Nat.eq_zero_or_pos room with rfl | hroom
      · exact ⟨r, by simp, rfl, h⟩
      · cases h with
        | ended hdata hrem hahead =>
          subst hdata
          cases hvalues
          exact ⟨r, by simp, rfl, .ended (by simp) hrem hahead⟩
        | block hne hdata hinside =>
          have := hinside.remaining
          have := List.length_pos_iff.mpr hne
          omega
    next hgo =>
    cases h with
    | ended hdata hrem hahead => exact absurd (.inr hrem) hgo
    | @block run batches hne hdata hinside =>
      have hpos := List.length_pos_iff.mpr hne
      obtain ⟨now, hnow⟩ : ∃ now, now = min r.remaining room := ⟨_, rfl⟩
      have hle : now ≤ run.length := by
        rw [hnow, hinside.remaining]
        exact Nat.min_le_left _ _
      have hfront : run.take now = data.take now := by
        rw [hdata, List.take_append_of_le_length hle]
      obtain ⟨input, hread, hinside'⟩ := readMany_reads hinside hreads hle
        (hfront ▸ List.forall₂_take now hvalues)
      obtain ⟨r₁, h₁, ho₁, hprimed⟩ := ensureBlock_run hinside'
      have hdrop : data.drop now = run.drop now ++ Batch.items batches := by
        rw [hdata, List.drop_append_of_le_length hle]
      rw [← hdrop] at hprimed
      obtain ⟨r₂, h₂, ho₂, hprimed'⟩ := ih (room - now) (by omega) hprimed
        (List.forall₂_drop now hvalues) (found ++ values.take now)
      have hroom : now + (room - now) = room := by omega
      refine ⟨r₂, ?_, ho₂.trans ho₁, ?_⟩
      · rw [← hnow]
        dsimp only
        rw [hread]
        dsimp only
        rw [h₁]
        dsimp only
        rw [h₂, List.append_assoc, ← List.take_add, hroom]
      · rw [List.drop_drop, hroom] at hprimed'
        exact hprimed'

end

/-- A batch without items ends a stream; one with items may have drained it. -/
theorem endBatch_run {r : Reader σ} {protocol : Protocol} {i : Nat} {data : List (Datum type)}
    {stop : Nat} {tail : Bytes} (ho : r.order = ⟨protocol, .at i⟩) (h : r.Primed data stop tail)
    {items : List α} (hitems : items = [] → data = []) :
    ∃ r', endBatch i items r = (!items.isEmpty, r') ∧ r'.Streaming protocol i data stop tail ∧
      (data = [] → r'.Before protocol (i + 1) stop tail) := by
  cases h with
  | @block run batches hne hdata hinside =>
    have hdata' : data ≠ [] := by
      rw [hdata]
      exact List.append_ne_nil_of_left_ne_nil hne _
    have hrem : r.remaining ≠ 0 := by
      rw [hinside.remaining]
      exact Nat.pos_iff_ne_zero.mp (List.length_pos_iff.mpr hne)
    have hmore : (!items.isEmpty) = true := by simpa using mt hitems hdata'
    refine ⟨r, ?_, .inside ho (.inl rfl) hdata hinside, fun hnil => absurd hnil hdata'⟩
    rw [hmore, endBatch, if_neg hrem]
  | ended hdata hrem hahead =>
    have hdrain : r.order.drain i = ⟨protocol, .drained i⟩ := by
      rw [ho]
      rfl
    refine ⟨{ r with order := ⟨protocol, .drained i⟩ }, ?_, .drained rfl hdata hrem hahead,
      fun _ => ⟨⟨_, rfl, .inr ⟨i, rfl, rfl⟩⟩, hrem, hahead⟩⟩
    rw [endBatch, if_pos hrem, hdrain]

/-- The next items of a stream, as many as asked for or as there are. -/
theorem readItems_reads {r : Reader σ} {protocol : Protocol} {i max : Nat} {name : String}
    {data : List (Datum type)} {values : List α} {stop : Nat} {tail : Bytes}
    {R : Datum type → α → Prop} {codec : Codec α} {decoder : StepDecoder α} (hmax : 0 < max)
    (hstep : protocol.steps[i]? = some ⟨name, .stream⟩)
    (h : r.Streaming protocol i data stop tail) (hreads : Datum.Reads R codec decoder)
    (hvalues : List.Forall₂ R data values) (seed : List α) :
    ∃ r', readItems codec decoder i max seed r =
        (.ok (!(values.take max).isEmpty) r', values.take max) ∧
      (data ≠ [] → r'.Streaming protocol i (data.drop max) stop tail) ∧
      (data = [] → r'.Before protocol (i + 1) stop tail) := by
  unfold readItems
  rw [if_neg (Nat.pos_iff_ne_zero.mp hmax)]
  cases h with
  | drained ho hdata hrem hahead =>
    subst hdata
    cases hvalues
    rw [authorize_run (by rw [ho]) hstep]
    dsimp only
    rw [beginStream_drained ho]
    refine ⟨{ r with order := ⟨protocol, .at (i + 1)⟩ }, ?_, fun hne => absurd rfl hne,
      fun _ => ⟨⟨_, rfl, .inl rfl⟩, hrem, hahead⟩⟩
    rw [List.take_nil]
    rfl
  | inside ho hfaces hdata hinside =>
    obtain ⟨r₁, h₁, ho₁, hprimed⟩ := ensureBlock_run (hinside.with_order ⟨protocol, .at i⟩)
    rw [← hdata] at hprimed
    obtain ⟨r₂, h₂, ho₂, hprimed'⟩ := fillItems_reads hprimed hreads hvalues max []
    have hdrop : values.take max = [] → data.drop max = [] := by
      rw [List.take_eq_nil_iff]
      rintro (rfl | rfl)
      · exact absurd rfl (Nat.pos_iff_ne_zero.mp hmax)
      · cases hvalues
        exact List.drop_nil
    obtain ⟨r₃, h₃, hstreaming, hbefore⟩ := endBatch_run (ho₂.trans ho₁) hprimed' hdrop
    rw [List.nil_append] at h₂
    rw [authorize_run (by rw [ho]) hstep]
    dsimp only
    rw [beginStream_run ho hfaces]
    dsimp only
    rw [h₁]
    dsimp only
    rw [h₂]
    dsimp only
    rw [h₃]
    refine ⟨r₃, rfl, fun _ => hstreaming, fun hnil => hbefore ?_⟩
    rw [hnil, List.drop_nil]

end Reader

end TypedStream
