import TypedStream.Proofs.Copying
import TypedStream.Proofs.Order.Ending
import TypedStream.Proofs.Order.Writing
import TypedStream.Proofs.SensorLog.Decoding

/-!
# Logs of version 0 are read as current ones

A file of version 0 is told from its header. A current reader delivers its data converted, however
the samples were batched and however they are read, and copying it into a current file is writing
the converted data (`SensorLog.evolves`). At the first obsolete sample the reader stops with a
conversion error.
-/

namespace TypedStream.SensorLog

-- ---------------------------------------------------------------------------
-- Logs
-- ---------------------------------------------------------------------------

structure LogV0 where
  header : HeaderV0
  id : Int64
  samples : List SampleV0
  footer : Option Text

namespace LogV0

/-- The log as it is written, its samples in batches. -/
def parts (log : LogV0) (batches : List (Batch sampleV0)) : List Part :=
  [.scalar headerV0 log.header.datum, .scalar identifier (idDatum log.id),
   .stream sampleV0 batches, .scalar SensorLog.footer (footerDatum log.footer)]

theorem fill (log : LogV0) (batches : List (Batch sampleV0)) :
    Part.Fill protocolV0.steps (log.parts batches) := rfl

/-- The current log. Of obsolete samples there is nothing in it. -/
def converted (log : LogV0) : Log where
  header := log.header.upgrade.toValue
  identifier := .int log.id.toInt
  samples := (log.samples.filterMap SampleV0.upgrade?).map Sample.toValue
  footer := noteValue log.footer

end LogV0

/-- The calls that read the steps before the samples. -/
def frontReads (version : Nat) : List ReadCall :=
  [.step SensorLog.header (headerDecoder version) headerStep, .step identifier .current idStep]

def sampleRead (version : Nat) : ReadCall := .item sample (sampleDecoder version) samplesStep

/-- The calls that read a log, with `pulls` for the samples. -/
def reads (version : Nat) (pulls : List Pull) : List ReadCall :=
  frontReads version ++ (pulls.map (Pull.callWith (sampleDecoder version) sample samplesStep) ++
    [.step SensorLog.footer .current footerStep])

namespace Log

def frontAnswers (log : Log) : List Answer := [.value log.header, .value log.identifier]

def answers (log : Log) (pulls : List Pull) : List Answer :=
  log.frontAnswers ++ (Pull.answers log.samples pulls ++ [.value log.footer])

end Log

-- ---------------------------------------------------------------------------
-- Samples
-- ---------------------------------------------------------------------------

/-- The datum is a sample of version 0, and the value is the current sample that it becomes. -/
def Upgraded (datum : Datum sampleV0) (value : Value) : Prop :=
  ∃ old new, SampleV0.upgrade? old = some new ∧ datum = old.datum ∧ value = new.toValue

theorem reads_upgraded : Datum.Reads Upgraded sample.codec (sampleDecoder 0) := by
  apply Datum.reads_legacy
  rintro _ _ ⟨old, new, hnew, rfl, rfl⟩ rest
  exact run_readSampleV0 hnew rest

theorem upgrade?_of_kept {old : SampleV0} (h : ¬ old.reading.Obsolete) :
    ∃ new, old.upgrade? = some new := by
  rwa [← SampleV0.upgrade?_eq_none, ← ne_eq, Option.ne_none_iff_exists'] at h

/-- Without obsolete samples there is one current sample for each old one. -/
theorem map_upgrade? {samples : List SampleV0} (hkept : ∀ old ∈ samples, ¬ old.reading.Obsolete) :
    samples.map SampleV0.upgrade? = (samples.filterMap SampleV0.upgrade?).map some := by
  induction samples with
  | nil => rfl
  | cons old samples ih =>
    obtain ⟨hold, hkept⟩ := List.forall_mem_cons.mp hkept
    obtain ⟨new, hnew⟩ := upgrade?_of_kept hold
    rw [List.filterMap_cons_some hnew, List.map_cons, List.map_cons, hnew, ih hkept]

theorem upgraded_samples {samples : List SampleV0}
    (hkept : ∀ old ∈ samples, ¬ old.reading.Obsolete) :
    List.Forall₂ Upgraded (samples.map SampleV0.datum)
      ((samples.filterMap SampleV0.upgrade?).map Sample.toValue) := by
  have hpairs := map_upgrade? hkept
  rw [← List.forall₂_eq_eq_eq, List.forall₂_map_left_iff, List.forall₂_map_right_iff] at hpairs
  rw [List.forall₂_map_left_iff, List.forall₂_map_right_iff]
  exact hpairs.imp fun old new hnew => ⟨old, new, hnew, rfl, rfl⟩

-- ---------------------------------------------------------------------------
-- Reading
-- ---------------------------------------------------------------------------

theorem versionOf_schemaV0 : protocol.versionOf schemaV0 = .ok 0 := by
  simp [Protocol.versionOf, protocol]

theorem short_schemaV0 : (utf8 schemaV0).length ≤ Header.maxSchemaBytes := by
  decide +kernel

theorem run_headerDecoder (old : HeaderV0) (rest : Bytes) :
    ((headerDecoder 0).one header.codec).run (old.datum.bytes ++ rest) =
      .ok (old.upgrade.toValue, rest) := run_readHeaderV0 old rest

section
variable {σ : Type} [ByteInput σ] [Lossless σ] {r : Reader σ} {log : LogV0} {pos : Nat}
  {batches : List (Batch sampleV0)}

theorem reads_front (h : r.Before protocol 0 pos (Part.allBytes (log.parts batches))) :
    ∃ r' stop, Reader.answers (frontReads 0) r = .ok log.converted.frontAnswers r' ∧
      r'.Streaming protocol samplesStep (Batch.items batches) stop
        (Part.allBytes [.scalar SensorLog.footer (footerDatum log.footer)]) := by
  obtain ⟨r₁, h₁, -, hid⟩ := Reader.readStep_reads rfl h (run_headerDecoder log.header _)
  obtain ⟨r₂, h₂, -, hsamples⟩ := Reader.readStep_run rfl hid
  exact ⟨r₂, _, Reader.answers_cons (Reader.map_ok h₁) (Reader.answers_cons (Reader.map_ok h₂) rfl),
    hsamples.streaming_bytes⟩

/-- Whatever calls read the samples, the log is delivered as a current one. -/
theorem reads_converted (h : r.Before protocol 0 pos (Part.allBytes (log.parts batches)))
    (hbatches : Batch.items batches = log.samples.map SampleV0.datum)
    (hkept : ∀ old ∈ log.samples, ¬ old.reading.Obsolete) {pulls : List Pull}
    (hpulls : Pull.Drain log.converted.samples pulls) :
    ∃ r' stop, Reader.answers (reads 0 pulls) r = .ok (log.converted.answers pulls) r' ∧
      r'.order = ⟨protocol, .at 4⟩ ∧ r'.Before protocol 4 stop [] := by
  obtain ⟨r₁, stop, hfront, hstreaming⟩ := reads_front h
  rw [hbatches] at hstreaming
  obtain ⟨r₂, hsamples, hfoot⟩ := Reader.answers_pulls_reads rfl hstreaming reads_upgraded
    (upgraded_samples hkept) hpulls
  obtain ⟨r₃, h₃, ho, hdone⟩ := Reader.readStep_run rfl hfoot
  refine ⟨r₃, _, Reader.answers_append hfront (Reader.answers_append hsamples ?_), ho, hdone⟩
  exact Reader.answers_cons (Reader.map_ok h₃) rfl

/-- Reads one by one deliver the samples in front of the first obsolete one, and then fail. -/
theorem stops_obsolete {front later : List SampleV0} {old : SampleV0} {stop : Nat} {tail : Bytes}
    (h : r.Streaming protocol samplesStep
      (front.map SampleV0.datum ++ old.datum :: later.map SampleV0.datum) stop tail)
    (hfront : ∀ old ∈ front, ¬ old.reading.Obsolete) (hold : old.reading.Obsolete) :
    ∃ r₁ r₂, Reader.answers (.replicate front.length (sampleRead 0)) r =
        .ok ((front.filterMap SampleV0.upgrade?).map fun new => .item (some new.toValue)) r₁ ∧
      Reader.answer (sampleRead 0) r₁ = .error (.conversion (.alternativeGone 3)) r₂ := by
  induction front generalizing r with
  | nil =>
    have hread : ∀ rest, ((sampleDecoder 0).one sample.codec).run (old.datum.bytes ++ rest) =
        .error (.conversion (.alternativeGone 3)) :=
      run_readSampleV0_obsolete (SampleV0.upgrade?_eq_none.mpr hold)
    obtain ⟨r₂, h₂⟩ := Reader.readItem_fails rfl h hread
    exact ⟨r, r₂, rfl, Reader.map_error h₂⟩
  | cons first front ih =>
    obtain ⟨hfirst, hfront⟩ := List.forall_mem_cons.mp hfront
    obtain ⟨new, hnew⟩ := upgrade?_of_kept hfirst
    obtain ⟨r₁, h₁, hstreaming⟩ := Reader.readItem_reads rfl h
      (reads_upgraded.one ⟨first, new, hnew, rfl, rfl⟩)
    obtain ⟨r₂, r₃, h₂, h₃⟩ := ih hstreaming hfront
    refine ⟨r₂, r₃, ?_, h₃⟩
    rw [List.filterMap_cons_some hnew]
    exact Reader.answers_cons (Reader.map_ok h₁) h₂

-- ---------------------------------------------------------------------------
-- Copying
-- ---------------------------------------------------------------------------

theorem writeBlocks_eq (blocks : List (List Value)) :
    writeBlocks blocks = Writer.writeAll sample.codec samplesStep blocks := by
  induction blocks with
  | nil => rfl
  | cons block blocks ih => simp only [writeBlocks, Writer.writeAll, ih]

/-- Where the current log can be written, the old one can be copied, with the same outcome. -/
theorem copies_converted (hversion : r.version = 0)
    (h : r.Before protocol 0 pos (Part.allBytes (log.parts batches)))
    (hbatches : Batch.items batches = log.samples.map SampleV0.datum)
    (hkept : ∀ old ∈ log.samples, ¬ old.reading.Obsolete) {buffer : Nat} {w w' : Writer}
    (hwrite : write log.converted buffer w = .ok () w') :
    ∃ r' stop, copy buffer { reader := r, writer := w } = .ok () { reader := r', writer := w' } ∧
      r'.order = ⟨protocol, .at 4⟩ ∧ r'.Before protocol 4 stop [] := by
  obtain ⟨⟨⟩, w₁, hw₁, hwrite⟩ := bind_ok.mp hwrite
  obtain ⟨⟨⟩, w₂, hw₂, hwrite⟩ := bind_ok.mp hwrite
  obtain ⟨⟨⟩, w₃, hw₃, hwrite⟩ := bind_ok.mp hwrite
  obtain ⟨⟨⟩, w₄, hw₄, hw₅⟩ := bind_ok.mp hwrite
  rw [writeBlocks_eq] at hw₃
  obtain ⟨r₁, h₁, -, hid⟩ := Copier.copyStep_run rfl h (run_headerDecoder log.header _) hw₁
  obtain ⟨r₂, h₂, -, hsamples⟩ :=
    Copier.copyStep_run rfl hid ((Datum.reads_current _).one rfl _) hw₂
  have hstreaming := hsamples.streaming_bytes
  rw [hbatches] at hstreaming
  obtain ⟨r₃, h₃, hfoot⟩ := Copier.copyStream_run rfl hstreaming reads_upgraded
    (upgraded_samples hkept) hw₃ hw₄
  obtain ⟨r₄, h₄, ho, hdone⟩ :=
    Copier.copyStep_run rfl hfoot ((Datum.reads_current _).one rfl _) hw₅
  refine ⟨r₄, _, ?_, ho, hdone⟩
  rw [copy, get_bind, hversion]
  exact bind_ok.mpr ⟨(), _, h₁, bind_ok.mpr ⟨(), _, h₂, bind_ok.mpr ⟨_, _, h₃, h₄⟩⟩⟩

end

/-- Items of a stream are written in any blocks. -/
theorem writeAll_takes {w : Writer} {i : Nat} (hlimit : w.out.sink.limit = none)
    (hindex : w.index = none) (h : w.At i .stream) (type : Ty) (blocks : List (List Value)) :
    ∃ w' data, Writer.writeAll type.codec i blocks w = .ok () w' ∧ Writer.Takes w w' data i := by
  induction blocks generalizing w with
  | nil => exact ⟨w, [], rfl, .refl hlimit, by rw [← h.1], hindex⟩
  | cons block blocks ih =>
    obtain ⟨w₁, h₁, htakes⟩ := Writer.writeItems_takes hlimit hindex h type block
    have hat : w₁.At i .stream := by
      simp only [Writer.At, htakes.order, true_and]
      exact h.2
    obtain ⟨w₂, data, h₂, htakes'⟩ := ih htakes.out.limit htakes.index hat
    refine ⟨w₂, _, bind_ok.mpr ⟨(), w₁, h₁, h₂⟩, htakes.out.trans htakes'.out, ?_, htakes'.index⟩
    rw [htakes'.order, htakes.order]

/-- A writer that has come to a step of the protocol. -/
structure Comes (w : Writer) (step : Nat) : Prop where
  limit : w.out.sink.limit = none
  index : w.index = none
  order : w.order = { protocol, next := step }

theorem Comes.at {w : Writer} {i : Nat} {name : String} {kind : StepKind} (h : Comes w i)
    (hstep : protocol.steps[i]? = some ⟨name, kind⟩) : w.At i kind := by
  simp only [Writer.At, h.order, true_and]
  exact ⟨name, hstep⟩

theorem Comes.takes {w w' : Writer} {i next : Nat} {data : Bytes} (h : Comes w i)
    (htakes : Writer.Takes w w' data next) : Comes w' next := by
  refine ⟨htakes.out.limit, htakes.index, ?_⟩
  rw [htakes.order, h.order]

/-- Every current log can be written. -/
theorem write_ok {w : Writer} {before : Bytes} {start : Nat}
    (h : w.Opened protocol before start none) (log : Log) (batch : Nat) :
    ∃ w' sink, write log batch w = .ok () w' ∧ w'.close = (.ok (), sink) := by
  have h₀ : Comes w headerStep := ⟨h.limit, h.index, h.order⟩
  obtain ⟨w₁, hw₁, htakes⟩ :=
    Writer.writeStep_takes h₀.limit h₀.index (h₀.at rfl) header log.header
  have h₁ : Comes w₁ idStep := h₀.takes htakes
  obtain ⟨w₂, hw₂, htakes⟩ :=
    Writer.writeStep_takes h₁.limit h₁.index (h₁.at rfl) identifier log.identifier
  have h₂ : Comes w₂ samplesStep := h₁.takes htakes
  obtain ⟨w₃, _, hw₃, htakes⟩ := writeAll_takes h₂.limit h₂.index (h₂.at rfl) sample
    (chunks (max 1 batch) log.samples)
  have h₃ : Comes w₃ samplesStep := h₂.takes htakes
  obtain ⟨w₄, hw₄, htakes⟩ := Writer.endStream_takes h₃.limit h₃.index (h₃.at rfl)
  have h₄ : Comes w₄ footerStep := h₃.takes htakes
  obtain ⟨w₅, hw₅, htakes⟩ :=
    Writer.writeStep_takes h₄.limit h₄.index (h₄.at rfl) SensorLog.footer log.footer
  have h₅ : Comes w₅ 4 := h₄.takes htakes
  obtain ⟨sink, hclose, -⟩ := Writer.close_ok h₅.limit (by rw [h₅.order]; rfl)
  rw [← writeBlocks_eq] at hw₃
  exact ⟨w₅, sink, bind_ok.mpr ⟨(), w₁, hw₁, bind_ok.mpr ⟨(), w₂, hw₂, bind_ok.mpr ⟨(), w₃, hw₃,
    bind_ok.mpr ⟨(), w₄, hw₄, hw₅⟩⟩⟩⟩, hclose⟩

-- ---------------------------------------------------------------------------
-- Files of version 0
-- ---------------------------------------------------------------------------

/-- All calls that drain the samples deliver this log. Then the reader can be closed. -/
def Delivers (r₀ : Reader InputStream) (log : Log) : Prop :=
  ∀ pulls, Pull.Drain log.samples pulls →
    (Pull.answers log.samples pulls).flatMap Answer.delivered = log.samples ∧
    ∃ r r', Reader.answers (reads r₀.version pulls) r₀ = .ok (log.answers pulls) r ∧
      Reader.close r = .ok () r'

/-- Copying to a writer is writing this log, in blocks of the same size. Then the reader can be
closed. -/
def CopiesAs (r₀ : Reader InputStream) (log : Log) : Prop :=
  ∀ buffer w w', write log buffer w = .ok () w' →
    ∃ r r', copy buffer { reader := r₀, writer := w } = .ok () { reader := r, writer := w' } ∧
      Reader.close r = .ok () r'

/-- Reads one by one deliver `count` samples of the log, these. The next read fails: it has come
to an alternative that is gone. -/
def StopsAfter (r₀ : Reader InputStream) (log : Log) (count : Nat) (samples : List Sample) :
    Prop :=
  ∃ r r', Reader.answers
      (frontReads r₀.version ++ .replicate count (sampleRead r₀.version)) r₀ =
      .ok (log.frontAnswers ++ samples.map fun new => .item (some new.toValue)) r ∧
    Reader.answer (sampleRead r₀.version) r = .error (.conversion (.alternativeGone 3)) r'

/-- A file of version 0, written in any batches, opens as such. Without obsolete samples it is
read as the current log, and copying it is writing the current log. Otherwise its samples are
delivered one by one up to the first obsolete one. -/
theorem evolves (log : LogV0) {batches : List (Batch sampleV0)}
    (hbatches : Batch.items batches = log.samples.map SampleV0.datum) {calls : List WriteCall}
    (hcalls : Script 0 (log.parts batches) calls) {sink : Sink} (hlimit : sink.limit = none)
    (writeBuffer : Nat) :
    ∃ w₀ w₁ sink', Writer.open protocolV0 sink writeBuffer = .ok w₀ ∧
      Writer.runCalls calls w₀ = .ok () w₁ ∧ w₁.close = (.ok (), sink') ∧
      sink'.bytes = sink.bytes ++ fileBytes protocolV0 (log.parts batches) ∧
      ∀ (source : Source) (readBuffer : Nat), source.Reliable →
        source.content.toList.drop source.pos = fileBytes protocolV0 (log.parts batches) →
        ∃ r₀, Reader.open protocol (InputStream.open source readBuffer 0) = .ok r₀ ∧
          r₀.version = 0 ∧
          ((∀ old ∈ log.samples, ¬ old.reading.Obsolete) →
            Delivers r₀ log.converted ∧ CopiesAs r₀ log.converted ∧
            ∀ (sink : Sink) (bufferSize buffer : Nat), sink.limit = none →
              ∃ w w' written, Writer.open protocol sink bufferSize = .ok w ∧
                write log.converted buffer w = .ok () w' ∧ w'.close = (.ok (), written)) ∧
          ∀ front old later, log.samples = front ++ old :: later →
            (∀ old ∈ front, ¬ old.reading.Obsolete) → old.reading.Obsolete →
            StopsAfter r₀ log.converted front.length (front.filterMap SampleV0.upgrade?) := by
  obtain ⟨w₀, w₁, sink', h₀, h₁, hclose, hbytes, -⟩ :=
    Writer.writes_file (log.fill batches) hcalls hlimit writeBuffer
  refine ⟨w₀, w₁, sink', h₀, h₁, hclose, hbytes, ?_⟩
  intro source readBuffer hreliable hfile
  have hahead := InputStream.ahead_open hreliable readBuffer 0
  rw [hfile, fileBytes] at hahead
  obtain ⟨r₀, hr₀, hversion, hbefore⟩ :=
    Reader.open_version short_schemaV0 versionOf_schemaV0 hahead
  refine ⟨r₀, hr₀, hversion, ?_, ?_⟩
  · intro hkept
    refine ⟨?_, ?_, ?_⟩
    · intro pulls hpulls
      obtain ⟨r, stop, hr, ho, hdone⟩ := reads_converted hbefore hbatches hkept hpulls
      obtain ⟨input, hend, -⟩ := Lossless.atEnd_ok hdone.ahead
      rw [hversion]
      exact ⟨Pull.delivered_answers hpulls, r, _, hr, Reader.close_complete ho hend⟩
    · intro buffer w w' hwrite
      obtain ⟨r, stop, hr, ho, hdone⟩ := copies_converted hversion hbefore hbatches hkept hwrite
      obtain ⟨input, hend, -⟩ := Lossless.atEnd_ok hdone.ahead
      exact ⟨r, _, hr, Reader.close_complete ho hend⟩
    · intro sink bufferSize buffer hlimit
      obtain ⟨w, hw, hopened⟩ := Writer.open_ok protocol hlimit bufferSize
      obtain ⟨w', written, hw', hclose⟩ := write_ok hopened log.converted buffer
      exact ⟨w, w', written, hw, hw', hclose⟩
  · intro front old later hsamples hfront hold
    obtain ⟨r, stop, hr, hstreaming⟩ := reads_front hbefore
    rw [hbatches, hsamples, List.map_append, List.map_cons] at hstreaming
    obtain ⟨r₁, r₂, h₁, h₂⟩ := stops_obsolete hstreaming hfront hold
    rw [StopsAfter, hversion]
    exact ⟨r₁, r₂, Reader.answers_append hr h₁, h₂⟩

namespace Rig

def header : HeaderV0 where
  subject := ⟨"rig", by decide⟩
  gain := -5
  units := .volts
  matrix := #v[#v[0, 1], #v[1, 0]]

def first : SampleV0 := { timestamp := 1, reading := .label ⟨"a", by decide⟩, channel := 4 }

def second (reading : ReadingV0) : SampleV0 := { timestamp := 2, reading, channel := 4000000000 }

/-- A label, and behind it a sample with this reading. -/
def log (reading : ReadingV0) : LogV0 where
  header := header
  id := 7
  samples := [first, second reading]
  footer := none

def batches (reading : ReadingV0) : List (Batch sampleV0) :=
  [.single first.datum, ⟨[], by decide, trivial⟩, .single (second reading).datum]

def calls (reading : ReadingV0) : List WriteCall :=
  [.step headerV0 0 header.toValue, .step identifier 1 (.int 7), .item sampleV0 2 first.toValue,
   .items sampleV0 2 [], .flush, .items sampleV0 2 [(second reading).toValue], .endStream 2,
   .step SensorLog.footer 3 .absent]

def pulls : List Pull := [.item, .items 5 (Nat.succ_pos 4) [], .item]

theorem script (reading : ReadingV0) :
    Script 0 ((log reading).parts (batches reading)) (calls reading) :=
  .scalar (.scalar (.item (.items (.flush (.items (.endStream (.scalar .nil)))))))

theorem drain {left : List Value} (h : left.length = 2) : Pull.Drain left pulls := by
  obtain ⟨a, b, rfl⟩ := List.length_eq_two.mp h
  exact .inr ⟨List.cons_ne_nil _ _, .inr ⟨List.cons_ne_nil _ _, .inl ⟨rfl, rfl⟩⟩⟩

theorem kept : ∀ old ∈ (log (.scalar 0)).samples, ¬ old.reading.Obsolete := by
  simp [log, first, second, ReadingV0.Obsolete]

end Rig

/-- A rig's log with a scalar behind the label is read whole, one with an obsolete reading there
up to the label. -/
theorem evolves_rig :
    (∃ w₀ w₁ sink r₀ r, Writer.open protocolV0 {} 0 = .ok w₀ ∧
      Writer.runCalls (Rig.calls (.scalar 0)) w₀ = .ok () w₁ ∧ w₁.close = (.ok (), sink) ∧
      Reader.open protocol (InputStream.open (.ofBytes sink.bytes) 0 0) = .ok r₀ ∧
      Reader.answers (reads r₀.version Rig.pulls) r₀ =
        .ok [.value (.record [.string "rig", .int (-5), .variant 2 [],
            .list [.list [.float 0, .float 1], .list [.float 1, .float 0]], .absent]),
          .value (.int 7), .item (some (.record [.int 1, .variant 3 [.string "a"], .string "4"])),
          .items true [.record [.int 2, .variant 1 [.float 0], .string "4000000000"]],
          .item none, .value .absent] r) ∧
    ∃ w₀ w₁ sink r₀, Writer.open protocolV0 {} 0 = .ok w₀ ∧
      Writer.runCalls (Rig.calls (.obsolete 3)) w₀ = .ok () w₁ ∧ w₁.close = (.ok (), sink) ∧
      Reader.open protocol (InputStream.open (.ofBytes sink.bytes) 0 0) = .ok r₀ ∧
      StopsAfter r₀ (Rig.log (.obsolete 3)).converted 1
        [{ timestamp := 1, reading := .label ⟨"a", by decide⟩, channel := "4" }] := by
  constructor
  · obtain ⟨w₀, w₁, sink, h₀, h₁, hclose, hbytes, hread⟩ :=
      evolves (Rig.log (.scalar 0)) rfl (Rig.script _) (show ({} : Sink).limit = none from rfl) 0
    obtain ⟨r₀, hr₀, hversion, hwhole, -⟩ := hread (.ofBytes sink.bytes) 0
      ⟨rfl, by simp [Source.ofBytes]⟩ (by rw [hbytes]; rfl)
    obtain ⟨-, r, r', hr, -⟩ := (hwhole Rig.kept).1 Rig.pulls (Rig.drain rfl)
    exact ⟨w₀, w₁, sink, r₀, r, h₀, h₁, hclose, hr₀, hr⟩
  · obtain ⟨w₀, w₁, sink, h₀, h₁, hclose, hbytes, hread⟩ :=
      evolves (Rig.log (.obsolete 3)) rfl (Rig.script _) (show ({} : Sink).limit = none from rfl) 0
    obtain ⟨r₀, hr₀, hversion, -, hstops⟩ := hread (.ofBytes sink.bytes) 0
      ⟨rfl, by simp [Source.ofBytes]⟩ (by rw [hbytes]; rfl)
    have hfront : ∀ old ∈ [Rig.first], ¬ old.reading.Obsolete := by
      simp [Rig.first, ReadingV0.Obsolete]
    exact ⟨w₀, w₁, sink, r₀, h₀, h₁, hclose, hr₀,
      hstops [Rig.first] (Rig.second (.obsolete 3)) [] rfl hfront ⟨3, rfl⟩⟩

end TypedStream.SensorLog
