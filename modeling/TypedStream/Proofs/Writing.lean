import TypedStream.Writer
import TypedStream.Proofs.Header
import TypedStream.Proofs.Output
import TypedStream.Proofs.Script

/-!
# What a writer writes

Over a sink without a limit, a writer that is given the parts of a file in order accepts every
call, however the streams are cut into batches and wherever it is flushed. It appends the bytes
of the parts (`Script.runCalls_ok`), and an index that it keeps records where they lie.
-/

namespace TypedStream

inductive WriteCall where
  | step (type : Ty) (step : Nat) (value : Value)
  | item (type : Ty) (step : Nat) (item : Value)
  | items (type : Ty) (step : Nat) (items : List Value)
  | endStream (step : Nat)
  | flush

/-- Calls that write parts, the first of them into the given step. -/
inductive Script : Nat → List Part → List WriteCall → Prop
  | nil {i} : Script i [] []
  | flush {i parts calls} : Script i parts calls → Script i parts (.flush :: calls)
  | scalar {i type datum parts calls} :
      Script (i + 1) parts calls →
      Script i (.scalar type datum :: parts) (.step type i datum.written :: calls)
  | item {i type datum batches parts calls} :
      Script i (.stream type batches :: parts) calls →
      Script i (.stream type (.single datum :: batches) :: parts)
        (.item type i datum.written :: calls)
  | items {i type batch batches parts calls} :
      Script i (.stream type batches :: parts) calls →
      Script i (.stream type (batch :: batches) :: parts)
        (.items type i (batch.data.map Datum.written) :: calls)
  | endStream {i type parts calls} :
      Script (i + 1) parts calls →
      Script i (.stream type [] :: parts) (.endStream i :: calls)

/-- Where values start that are put down one by one from a position on. -/
def Codec.starts (codec : Codec α) : Nat → List α → List Nat
  | _, [] => []
  | pos, value :: values => pos :: codec.starts (pos + (codec.encode value).length) values

theorem Datum.starts_eq (pos : Nat) (data : List (Datum type)) :
    starts pos data = type.codec.starts pos (data.map written) := by
  induction data generalizing pos with
  | nil => rfl
  | cons datum data ih =>
    rw [starts, List.map_cons, Codec.starts, ih]
    rfl

namespace Writer

def runCall : WriteCall → EStateM Error Writer Unit
  | .step type step value => writeStep type.codec step value
  | .item type step item => writeItem type.codec step item
  | .items type step items => writeItems type.codec step items
  | .endStream step => endStream step
  | .flush => flush

def runCalls : List WriteCall → EStateM Error Writer Unit
  | [] => pure ()
  | call :: calls => do
    runCall call
    runCalls calls

/-- `w'` is `w` with `data` written, which an index records so, and it goes on at step `next`. -/
structure Puts (w w' : Writer) (data : Bytes) (record : Nat → StreamIndex → StreamIndex)
    (next : Nat) : Prop where
  out : w'.out.Extends w.out data
  order : w'.order = { w.order with next }
  index : w'.index = w.index.map (record w.pos)

theorem Puts.trans {w w₁ w₂ : Writer} {data more : Bytes}
    {record record' : Nat → StreamIndex → StreamIndex} {next next' : Nat}
    (h : Puts w w₁ data record next) (h' : Puts w₁ w₂ more record' next') :
    Puts w w₂ (data ++ more) (fun pos index => record' (pos + data.length) (record pos index))
      next' := by
  refine ⟨h.out.trans h'.out, by rw [h'.order, h.order], ?_⟩
  rw [h'.index, h.index, Option.map_map, pos, h.out.pos]
  rfl

section
variable {w : Writer} {i : Nat} {name : String} {kind : StepKind}

structure ComesTo (w : Writer) (i : Nat) (name : String) (kind : StepKind) : Prop where
  limit : w.out.sink.limit = none
  next : w.order.next = i
  step : w.order.protocol.step? i = some ⟨name, kind⟩

theorem authorize_ok (h : w.ComesTo i name kind) {check : WriteOrder → Except Error Unit}
    (hcheck : check w.order = .ok ()) : authorize check i kind w = .ok ⟨name, kind⟩ w := by
  have hstep : w.order.protocol.stepOfKind i kind = .ok ⟨name, kind⟩ := by
    simp only [Protocol.stepOfKind, h.step, if_true]
  simp only [authorize, hcheck, hstep]

theorem authorize_write (h : w.ComesTo i name kind) :
    authorize (·.checkWrite i) i kind w = .ok ⟨name, kind⟩ w :=
  authorize_ok h (if_pos h.next)

theorem authorize_end (h : w.ComesTo i name kind) :
    authorize (·.checkEnd i) i kind w = .ok ⟨name, kind⟩ w :=
  authorize_ok h (if_pos h.next)

theorem mark_run (name : String) (w : Writer) :
    mark name w = .ok () { w with index := w.index.map (·.markStep name w.pos) } := rfl

theorem onStream_ok {act : EStateM Error OutputStream α} {out : OutputStream} {value : α}
    (h : act w.out = .ok value out) : onStream act w = .ok value { w with out } := by
  simp only [onStream, h]

-- ---------------------------------------------------------------------------
-- Blocks
-- ---------------------------------------------------------------------------

theorem putItems_ok {out : OutputStream} (h : out.sink.limit = none) (codec : Codec α)
    (items : List α) (offsets : List Nat) :
    ∃ t, putItems codec items offsets out =
        .ok (offsets.reverse ++ codec.starts out.pos items) t ∧
      t.Extends out (items.flatMap codec.encode) := by
  induction items generalizing out offsets with
  | nil => exact ⟨out, by rw [Codec.starts, List.append_nil]; rfl, .refl h⟩
  | cons item items ih =>
    obtain ⟨t, ht, hext⟩ := OutputStream.putAll_ok h (codec.writes item)
    obtain ⟨u, hu, hext'⟩ := ih hext.limit (out.pos :: offsets)
    refine ⟨u, bind_ok.mpr ⟨out, out, rfl, bind_ok.mpr ⟨(), t, ht, ?_⟩⟩, hext.trans hext'⟩
    rw [hu, hext.pos, List.reverse_cons, List.append_assoc]
    rfl

theorem putBlock_none (h : w.index = none) (codec : Codec α) (name : String) (items : List α) :
    putBlock codec name items w = onStream (OutputStream.putAll (codec.runWrites items)) w := by
  rw [putBlock, get_bind, h]

theorem putBlock_some {index : StreamIndex} (h : w.index = some index) (codec : Codec α)
    (name : String) (items : List α) :
    putBlock codec name items w =
      (onStream (putItems codec items []) >>= fun offsets =>
        modify fun w => { w with index := w.index.map (·.addBlock name offsets) }) w := by
  rw [putBlock, get_bind, h]

/-- Items are put down in the same way whether or not their offsets are kept. -/
theorem putBlock_ok (h : w.out.sink.limit = none) (name : String) (type : Ty)
    (items : List Value) :
    ∃ w', putBlock type.codec name items w = .ok () w' ∧
      Puts w w' (items.flatMap type.codec.encode)
        (fun pos index => index.addBlock name (type.codec.starts pos items)) w.order.next := by
  cases hindex : w.index with
  | none =>
    obtain ⟨t, ht, hext⟩ := OutputStream.putAll_ok h (type.codec.runWrites items)
    rw [type.carries_codec.runWrites] at hext
    exact ⟨{ w with out := t }, (putBlock_none hindex _ _ _).trans (onStream_ok ht), hext, rfl,
      by rw [hindex]; rfl⟩
  | some index =>
    obtain ⟨t, ht, hext⟩ := putItems_ok h type.codec items []
    exact ⟨{ w with
      out := t, index := w.index.map (·.addBlock name (type.codec.starts w.out.pos items)) },
      (putBlock_some hindex _ _ _).trans (bind_ok.mpr ⟨_, _, onStream_ok ht, rfl⟩), hext, rfl, rfl⟩

theorem writeItems_nil (h : w.ComesTo i name .stream) (codec : Codec α) :
    writeItems codec i [] w = .ok () w := bind_ok.mpr ⟨_, w, authorize_write h, rfl⟩

theorem ComesTo.puts_nothing (h : w.ComesTo i name kind) : Puts w w [] (fun _ index => index) i :=
  ⟨.refl h.limit, by rw [← h.next], by simp⟩

theorem writeBlock_ok (h : w.ComesTo i name .stream) (type : Ty) {items : List Value}
    (hne : items ≠ []) :
    ∃ w', writeItems type.codec i items w = .ok () w' ∧
      Puts w w' (varint items.length ++ items.flatMap type.codec.encode)
        (fun pos index => (index.markStep name pos).addBlock name
          (type.codec.starts (pos + (varint items.length).length) items)) i := by
  have hempty : items.isEmpty = false := by simpa using hne
  obtain ⟨out, hcount, hext⟩ := OutputStream.put_ok h.limit (varint items.length)
  obtain ⟨w', hblock, hputs⟩ := putBlock_ok
    (w := { w with index := w.index.map (·.markStep name w.pos), out }) hext.limit name type items
  refine ⟨w', bind_ok.mpr ⟨_, w, authorize_write h, ?_⟩, ⟨hext.trans hputs.out, ?_, ?_⟩⟩
  · rw [hempty]
    exact bind_ok.mpr ⟨(), _, mark_run name w, bind_ok.mpr ⟨(), _, onStream_ok hcount, hblock⟩⟩
  · rw [hputs.order, ← h.next]
  · rw [hputs.index, Option.map_map, pos, hext.pos]
    rfl

theorem writeItems_ok (h : w.ComesTo i name .stream) (batch : Batch type) :
    ∃ w', writeItems type.codec i (batch.data.map Datum.written) w = .ok () w' ∧
      Puts w w' batch.bytes (batch.record name) i := by
  by_cases hdata : batch.data = []
  · have hid : batch.record name = fun _ index => index :=
      funext fun pos => funext (Batch.record_nil hdata name pos)
    rw [hdata, Batch.bytes_nil hdata, hid]
    exact ⟨w, writeItems_nil h type.codec, h.puts_nothing⟩
  · have hrecord : batch.record name = fun pos index => (index.markStep name pos).addBlock name
        (Datum.starts (pos + (varint batch.data.length).length) batch.data) :=
      funext fun pos => funext (Batch.record_eq hdata name pos)
    have hitems : batch.data.map Datum.written ≠ [] := by simpa using hdata
    obtain ⟨w', hrun, hputs⟩ := writeBlock_ok h type hitems
    refine ⟨w', hrun, ?_⟩
    simp only [List.length_map, List.flatMap_map] at hputs
    simp only [Batch.bytes_eq hdata, hrecord, Datum.starts_eq]
    exact hputs

-- ---------------------------------------------------------------------------
-- Steps
-- ---------------------------------------------------------------------------

theorem writeStep_ok (h : w.ComesTo i name .scalar) (type : Ty) (value : Value) :
    ∃ w', writeStep type.codec i value w = .ok () w' ∧
      Puts w w' (type.codec.encode value) (fun pos index => index.markStep name pos) (i + 1) := by
  obtain ⟨out, hout, hext⟩ := OutputStream.putAll_ok h.limit (type.codec.writes value)
  refine ⟨{ w with
    index := w.index.map (·.markStep name w.pos), out, order := w.order.finish i },
    bind_ok.mpr ⟨_, w, authorize_write h, ?_⟩, hext, rfl, rfl⟩
  exact bind_ok.mpr ⟨(), _, mark_run name w, bind_ok.mpr ⟨(), _, onStream_ok hout, rfl⟩⟩

theorem endStream_ok (h : w.ComesTo i name .stream) :
    ∃ w', endStream i w = .ok () w' ∧
      Puts w w' (varint 0) (fun pos index => index.markStep name pos) (i + 1) := by
  obtain ⟨out, hout, hext⟩ := OutputStream.put_ok h.limit (varint 0)
  refine ⟨{ w with
    index := w.index.map (·.markStep name w.pos), out, order := w.order.finish i },
    bind_ok.mpr ⟨_, w, authorize_end h, ?_⟩, hext, rfl, rfl⟩
  exact bind_ok.mpr ⟨(), _, mark_run name w, bind_ok.mpr ⟨(), _, onStream_ok hout, rfl⟩⟩

theorem flush_ok (h : w.out.sink.limit = none) :
    ∃ w', flush w = .ok () w' ∧ Puts w w' [] (fun _ index => index) w.order.next := by
  obtain ⟨out, hout, hext, -, -⟩ := OutputStream.flush_ok h
  exact ⟨_, onStream_ok hout, ⟨hext, rfl, by simp⟩⟩

end

end Writer

-- ---------------------------------------------------------------------------
-- Runs of calls
-- ---------------------------------------------------------------------------

open Writer in
/-- Calls that write parts succeed, and they append the parts' bytes. -/
theorem Script.runCalls_ok {i : Nat} {parts : List Part} {calls : List WriteCall}
    (h : Script i parts calls) {w : Writer} {steps : List Step} (hlimit : w.out.sink.limit = none)
    (hnext : w.order.next = i) (hsteps : steps <+: w.order.protocol.steps.drop i)
    (hfill : Part.Fill steps parts) :
    ∃ w', runCalls calls w = .ok () w' ∧
      Puts w w' (Part.allBytes parts) (fun pos => Part.recordAll pos steps parts)
        (i + parts.length) := by
  -- A stream of which a batch has been written is the stream of the batches left, so the
  -- induction is on the calls.
  induction h generalizing w steps with
  | nil =>
    refine ⟨w, rfl, .refl hlimit, by rw [← hnext]; rfl, ?_⟩
    have hid : Part.recordAll w.pos steps [] = id := funext (Part.recordAll_nil _ _)
    rw [hid, Option.map_id]
    rfl
  | flush _ ih =>
    obtain ⟨w₁, h₁, hputs⟩ := flush_ok hlimit
    obtain ⟨w₂, h₂, hputs'⟩ := ih hputs.out.limit (by rw [hputs.order]; exact hnext)
      (by rw [hputs.order]; exact hsteps) hfill
    exact ⟨w₂, bind_ok.mpr ⟨(), w₁, h₁, h₂⟩, hputs.trans hputs'⟩
  | @scalar i type datum parts calls _ ih =>
    obtain ⟨name, rest, rfl, hparts⟩ := hfill.cons
    obtain ⟨hstep, hrest⟩ := Part.drop_cons hsteps
    obtain ⟨w₁, h₁, hputs⟩ := writeStep_ok ⟨hlimit, hnext, hstep⟩ type datum.written
    obtain ⟨w₂, h₂, hputs'⟩ := ih hputs.out.limit (by rw [hputs.order])
      (by rw [hputs.order]; exact hrest) hparts
    refine ⟨w₂, bind_ok.mpr ⟨(), w₁, h₁, h₂⟩, ?_⟩
    rw [List.length_cons, ← Nat.succ_add_eq_add_succ]
    exact hputs.trans hputs'
  | @item i type datum batches parts calls _ ih =>
    obtain ⟨name, rest, rfl, hrest⟩ := hfill.cons
    obtain ⟨hstep, -⟩ := Part.drop_cons hsteps
    obtain ⟨w₁, h₁, hputs⟩ := writeItems_ok ⟨hlimit, hnext, hstep⟩ (.single datum)
    obtain ⟨w₂, h₂, hputs'⟩ := ih hputs.out.limit (by rw [hputs.order])
      (by rw [hputs.order]; exact hsteps) hfill
    refine ⟨w₂, bind_ok.mpr ⟨(), w₁, h₁, h₂⟩, ?_⟩
    rw [Part.allBytes_stream, Part.recordAll_stream]
    exact hputs.trans hputs'
  | @items i type batch batches parts calls _ ih =>
    obtain ⟨name, rest, rfl, hrest⟩ := hfill.cons
    obtain ⟨hstep, -⟩ := Part.drop_cons hsteps
    obtain ⟨w₁, h₁, hputs⟩ := writeItems_ok ⟨hlimit, hnext, hstep⟩ batch
    obtain ⟨w₂, h₂, hputs'⟩ := ih hputs.out.limit (by rw [hputs.order])
      (by rw [hputs.order]; exact hsteps) hfill
    refine ⟨w₂, bind_ok.mpr ⟨(), w₁, h₁, h₂⟩, ?_⟩
    rw [Part.allBytes_stream, Part.recordAll_stream]
    exact hputs.trans hputs'
  | @endStream i type parts calls _ ih =>
    obtain ⟨name, rest, rfl, hparts⟩ := hfill.cons
    obtain ⟨hstep, hrest⟩ := Part.drop_cons hsteps
    obtain ⟨w₁, h₁, hputs⟩ := endStream_ok ⟨hlimit, hnext, hstep⟩
    obtain ⟨w₂, h₂, hputs'⟩ := ih hputs.out.limit (by rw [hputs.order])
      (by rw [hputs.order]; exact hrest) hparts
    refine ⟨w₂, bind_ok.mpr ⟨(), w₁, h₁, h₂⟩, ?_⟩
    rw [List.length_cons, ← Nat.succ_add_eq_add_succ]
    exact hputs.trans hputs'

-- ---------------------------------------------------------------------------
-- Opening and closing
-- ---------------------------------------------------------------------------

def fileBytes (protocol : Protocol) (parts : List Part) : Bytes :=
  Header.bytes protocol.schema ++ Part.allBytes parts

def fileIndex (protocol : Protocol) (parts : List Part) (start : Nat) : StreamIndex :=
  Part.recordAll (start + (Header.bytes protocol.schema).length) protocol.steps parts {}

namespace Writer

/-- A writer that has written the header of a protocol behind `before`, at position `start`. -/
structure Opened (w : Writer) (protocol : Protocol) (before : Bytes) (start : Nat)
    (index : Option StreamIndex) : Prop where
  limit : w.out.sink.limit = none
  written : w.out.written = before ++ Header.bytes protocol.schema
  pos : w.pos = start + (Header.bytes protocol.schema).length
  order : w.order = { protocol }
  index : w.index = index

theorem start_ok (protocol : Protocol) (out : OutputStream) (h : out.sink.limit = none)
    (index : Option StreamIndex) :
    ∃ w, start protocol out index = .ok w ∧
      w.Opened protocol out.written out.pos index := by
  obtain ⟨t, ht, hext⟩ := OutputStream.putAll_ok h (Header.writes protocol.schema)
  refine ⟨{ out := t, order := { protocol }, index }, ?_, hext.limit, hext.written, hext.pos, rfl,
    rfl⟩
  simp only [start, ht]

theorem open_ok (protocol : Protocol) {sink : Sink} (h : sink.limit = none) (bufferSize : Nat) :
    ∃ w, Writer.open protocol sink bufferSize = .ok w ∧
      w.Opened protocol sink.bytes 0 none := by
  obtain ⟨w, hw, hopened⟩ := start_ok protocol (OutputStream.open sink bufferSize 0) h none
  exact ⟨w, hw, { hopened with written := by simpa using hopened.written }⟩

theorem openIndexed_ok (protocol : Protocol) {sink : Sink} (h : sink.limit = none)
    (hpipe : sink.pipe = false) (bufferSize : Nat) :
    ∃ w, Writer.openIndexed protocol sink bufferSize = .ok w ∧
      w.Opened protocol sink.bytes sink.bytes.length (some {}) := by
  have hposition : sink.position = .ok sink.bytes.length := by
    simp [Sink.position, hpipe, ByteLog.size_eq_length, Sink.bytes]
  obtain ⟨w, hw, hopened⟩ := start_ok protocol
    (OutputStream.open sink bufferSize sink.bytes.length) h (some {})
  refine ⟨w, ?_, { hopened with written := by simpa using hopened.written }⟩
  simp only [openIndexed, hposition, hw]

def sectionBytes (w : Writer) : Bytes :=
  match w.index with
  | none => []
  | some index => (index.writes w.pos).flatten

theorem putIndex_none {w : Writer} (h : w.index = none) : putIndex w = .ok () w := by
  rw [putIndex, get_bind, h]
  rfl

theorem putIndex_some {w : Writer} {index : StreamIndex} (h : w.index = some index) :
    putIndex w = onStream (fun out => OutputStream.putAll (index.writes out.pos) out) w := by
  rw [putIndex, get_bind, h]

theorem putIndex_ok {w : Writer} (h : w.out.sink.limit = none) :
    ∃ out, putIndex w = .ok () { w with out } ∧ out.Extends w.out w.sectionBytes := by
  rcases Option.eq_none_or_eq_some w.index with hindex | ⟨index, hindex⟩
  · refine ⟨w.out, putIndex_none hindex, ?_⟩
    rw [sectionBytes, hindex]
    exact .refl h
  · obtain ⟨out, hout, hext⟩ := OutputStream.putAll_ok h (index.writes w.out.pos)
    refine ⟨out, (putIndex_some hindex).trans (onStream_ok hout), ?_⟩
    rw [sectionBytes, hindex]
    exact hext

theorem settle_run {w : Writer} (h : w.order.checkClose = .ok ()) :
    settle w = (putIndex >>= fun _ => flush) w := by
  rw [settle, get_bind, h]

theorem settle_refused {w : Writer} {error : Error} (h : w.order.checkClose = .error error) :
    settle w = .error error w := by
  rw [settle, get_bind, h]
  rfl

theorem close_ok {w : Writer} (h : w.out.sink.limit = none)
    (hnext : w.order.next = w.order.protocol.stepCount) :
    ∃ sink, w.close = (.ok (), sink) ∧ sink.bytes = w.out.written ++ w.sectionBytes := by
  have hcheck : w.order.checkClose = .ok () := if_pos (by simp [WriteOrder.complete, hnext])
  obtain ⟨out, hindex, hext⟩ := putIndex_ok h
  obtain ⟨out', hflush, hext', -, -⟩ := OutputStream.flush_ok hext.limit
  have hsettle : settle w = .ok () { w with out := out' } :=
    (settle_run hcheck).trans (bind_ok.mpr ⟨(), _, hindex, onStream_ok hflush⟩)
  obtain ⟨sink, hclose, hbytes⟩ := OutputStream.close_ok hext'.limit
  refine ⟨sink, ?_, ?_⟩
  · simp only [close, hsettle, release, hclose]
  · rw [hbytes, hext'.written, List.append_nil, hext.written]

section
variable {w w' : Writer} {protocol : Protocol} {before : Bytes} {start : Nat}
  {index : Option StreamIndex}

/-- An opened writer that has put down every step can be closed. -/
theorem Opened.closes (h : w.Opened protocol before start index) {data : Bytes}
    {record : Nat → StreamIndex → StreamIndex}
    (hputs : Puts w w' data record protocol.stepCount) :
    ∃ sink', w'.close = (.ok (), sink') ∧
      sink'.bytes = before ++ (Header.bytes protocol.schema ++ data) ++ w'.sectionBytes := by
  have hnext : w'.order.next = w'.order.protocol.stepCount := by rw [hputs.order, h.order]
  obtain ⟨sink', hclose, hbytes⟩ := close_ok hputs.out.limit hnext
  refine ⟨sink', hclose, ?_⟩
  rw [hbytes, hputs.out.written, h.written, List.append_assoc before]

/-- An opened writer that is given the parts of a file puts down the file, and its index if it
keeps one. -/
theorem Opened.runs {parts : List Part} {calls : List WriteCall}
    (h : w.Opened protocol before start index) (hfill : Part.Fill protocol.steps parts)
    (hcalls : Script 0 parts calls) :
    ∃ w' sink', runCalls calls w = .ok () w' ∧ w'.close = (.ok (), sink') ∧
      sink'.bytes = before ++ fileBytes protocol parts ++ w'.sectionBytes ∧
      w'.pos = start + (fileBytes protocol parts).length ∧
      w'.index = index.map
        (Part.recordAll (start + (Header.bytes protocol.schema).length) protocol.steps parts) := by
  obtain ⟨w', hw', hputs⟩ := hcalls.runCalls_ok h.limit (by rw [h.order])
    (by rw [h.order]; exact List.prefix_refl _) hfill
  have hcount : 0 + parts.length = protocol.stepCount := by
    rw [Nat.zero_add, hfill.length_eq]
    rfl
  rw [hcount] at hputs
  obtain ⟨sink', hclose, hbytes⟩ := h.closes hputs
  refine ⟨w', sink', hw', hclose, hbytes, ?_, ?_⟩
  · have hpos : w'.pos = w.pos + (Part.allBytes parts).length := hputs.out.pos
    rw [hpos, h.pos, fileBytes, List.length_append, Nat.add_assoc]
  · rw [hputs.index, h.index, h.pos]

end

theorem writes_file {protocol : Protocol} {parts : List Part} {calls : List WriteCall}
    (hfill : Part.Fill protocol.steps parts) (hcalls : Script 0 parts calls) {sink : Sink}
    (hlimit : sink.limit = none) (bufferSize : Nat) :
    ∃ w₀ w₁ sink', Writer.open protocol sink bufferSize = .ok w₀ ∧
      runCalls calls w₀ = .ok () w₁ ∧ w₁.close = (.ok (), sink') ∧
      sink'.bytes = sink.bytes ++ fileBytes protocol parts ∧
      w₀.Opened protocol sink.bytes 0 none := by
  obtain ⟨w₀, h₀, hopened⟩ := open_ok protocol hlimit bufferSize
  obtain ⟨w₁, sink', h₁, hclose, hbytes, -, hindex⟩ := hopened.runs hfill hcalls
  refine ⟨w₀, w₁, sink', h₀, h₁, hclose, ?_, hopened⟩
  rw [hbytes, sectionBytes, hindex]
  exact List.append_nil _

theorem Opened.runs_indexed {w : Writer} {protocol : Protocol} {before : Bytes} {parts : List Part}
    {calls : List WriteCall} (h : w.Opened protocol before before.length (some {}))
    (hfill : Part.Fill protocol.steps parts) (hcalls : Script 0 parts calls) :
    ∃ w' sink', runCalls calls w = .ok () w' ∧ w'.close = (.ok (), sink') ∧
      w'.index = some (fileIndex protocol parts before.length) ∧
      sink'.bytes = before ++ fileBytes protocol parts ++
        ((fileIndex protocol parts before.length).writes
          (before ++ fileBytes protocol parts).length).flatten := by
  obtain ⟨w', sink', hw', hclose, hbytes, hpos, hindex⟩ := h.runs hfill hcalls
  have hindex' : w'.index = some (fileIndex protocol parts before.length) := hindex
  refine ⟨w', sink', hw', hclose, hindex', ?_⟩
  rw [hbytes, sectionBytes, hindex', hpos, List.length_append]

end Writer

end TypedStream
