import TypedStream.Proofs.Accepted
import TypedStream.Proofs.Congruence
import TypedStream.Proofs.Index.Loading
import TypedStream.Proofs.Index.Search
import TypedStream.Proofs.Jumps
import TypedStream.Proofs.RoundTrip

/-!
# Random access

An indexed reader that jumps to a step cannot be told from a reader that has read every step
before it, and one that jumps to an item delivers that item and all that come after it
(`IndexedReader.random_access`). It does not matter what has been read or sought before.

Wherever successful calls lead, the input stands somewhere in the content of the file
(`IndexedReader.Stands`), and a jump needs no more than that.
-/

namespace TypedStream

theorem InputStream.congruent_over (content : Array UInt8) :
    Congruent (fun s t : InputStream => s = t ∧ ∃ p, s.Over content p) (fun _ _ => True) := by
  refine Reader.congruent_self ?_ ?_
  · rintro s t count bytes ⟨p, hover⟩ htake
    exact ⟨_, hover.take htake⟩
  · rintro s t ended ⟨p, hover⟩ hend
    exact ⟨p, hover.atEnd hend⟩

namespace IndexedReader

inductive Reachable (r₀ : IndexedReader σ) [SeekableInput σ] : IndexedReader σ → Prop
  | opened : Reachable r₀ r₀
  | read {r r' call found} (h : Reachable r₀ r)
      (run : onReader (Reader.answer call) r = .ok found r') : Reachable r₀ r'
  | seekStep {r r' step} (h : Reachable r₀ r) (run : seekStep step r = .ok () r') : Reachable r₀ r'
  | seekItem {r r' step item found} (h : Reachable r₀ r)
      (run : seekItem step item r = .ok found r') : Reachable r₀ r'

-- ---------------------------------------------------------------------------
-- Where a reader stands
-- ---------------------------------------------------------------------------

/-- The reader has the index and the version that it was opened with, and its input stands
somewhere in the content. -/
structure Stands (r : IndexedReader InputStream) (protocol : Protocol) (version : Nat)
    (index : StreamIndex) (content : Array UInt8) : Prop where
  index_eq : r.index = index
  protocol_eq : r.reader.order.protocol = protocol
  version_eq : r.reader.version = version
  input_over : ∃ p, r.reader.input.Over content p

section
variable {r r' : IndexedReader InputStream} {protocol : Protocol} {version : Nat}
  {index : StreamIndex} {content : Array UInt8}

theorem Stands.read (h : r.Stands protocol version index content) {call : ReadCall}
    {found : Answer} (hrun : onReader (Reader.answer call) r = .ok found r') :
    r'.Stands protocol version index content := by
  unfold onReader at hrun
  split at hrun
  · next value reader hanswer =>
    cases hrun
    obtain ⟨hprotocol, hversion, hover⟩ :=
      Reader.answer_keeps (InputStream.congruent_over content) h.input_over hanswer
    exact ⟨h.index_eq, hprotocol.trans h.protocol_eq, hversion.trans h.version_eq, hover⟩
  · cases hrun

structure Jumped (r r' : IndexedReader InputStream) (content : Array UInt8)
    (offset step remaining : Nat) : Prop where
  index : r'.index = r.index
  order : r'.reader.order = r.reader.order.jump step
  version : r'.reader.version = r.reader.version
  remaining : r'.reader.remaining = remaining
  input_over : r'.reader.input.Over content offset

theorem Stands.jump_ok (h : r.Stands protocol version index content) {offset : Nat}
    (ho : offset ≤ content.size) (step remaining : Nat) :
    ∃ r', jump offset step remaining r = .ok () r' ∧ r.Jumped r' content offset step remaining := by
  obtain ⟨p, hover⟩ := h.input_over
  obtain ⟨input, hseek, hover'⟩ := hover.seek_ok ho
  exact ⟨_, jump_run hseek, rfl, rfl, rfl, rfl, hover'⟩

theorem Jumped.stands {offset step remaining : Nat}
    (hjump : r.Jumped r' content offset step remaining)
    (h : r.Stands protocol version index content) : r'.Stands protocol version index content where
  index_eq := hjump.index.trans h.index_eq
  protocol_eq := by
    rw [hjump.order]
    exact h.protocol_eq
  version_eq := hjump.version.trans h.version_eq
  input_over := ⟨offset, hjump.input_over⟩

-- ---------------------------------------------------------------------------
-- Seeks that succeed
-- ---------------------------------------------------------------------------

theorem Stands.jump (h : r.Stands protocol version index content) {offset step remaining : Nat}
    (ho : offset ≤ content.size) (hrun : IndexedReader.jump offset step remaining r = .ok () r') :
    r'.Stands protocol version index content := by
  obtain ⟨r'', hrun', hjump⟩ := h.jump_ok ho step remaining
  rw [hrun'] at hrun
  cases hrun
  exact hjump.stands h

theorem Stands.seekStep (h : r.Stands protocol version index content)
    (hindex : index.Regular content.size) {step : Nat}
    (hrun : IndexedReader.seekStep step r = .ok () r') :
    r'.Stands protocol version index content := by
  obtain ⟨offset, htarget, hjump⟩ := seekStep_ok hrun
  obtain ⟨name, -, hoffset⟩ := stepTarget_inv htarget
  rw [h.index_eq] at hoffset
  exact h.jump (hindex.steps_le _ (StreamIndex.mem_of_stepOffset hoffset)) hjump

theorem Stands.seekItem (h : r.Stands protocol version index content)
    (hindex : index.Regular content.size) {step item : Nat} {found : Bool}
    (hrun : IndexedReader.seekItem step item r = .ok found r') :
    r'.Stands protocol version index content := by
  obtain ⟨-, -, rfl⟩ | ⟨location, -, htarget, hjump⟩ := seekItem_ok hrun
  · exact h
  obtain ⟨name, -, ⟨-, hnone⟩ | ⟨found, hfind, hsome⟩⟩ := itemTarget_inv htarget
  · cases hnone
  · cases hsome
    rw [h.index_eq] at hfind
    exact h.jump (hindex.itemsOf_le name _
      (List.mem_of_getElem? (StreamIndex.getElem?_of_find hfind))) hjump

theorem Reachable.stands {r₀ : IndexedReader InputStream} (h : Reachable r₀ r)
    (h₀ : r₀.Stands protocol version index content) (hindex : index.Regular content.size) :
    r.Stands protocol version index content := by
  induction h with
  | opened => exact h₀
  | read _ hrun ih => exact ih.read hrun
  | seekStep _ hrun ih => exact ih.seekStep hindex hrun
  | seekItem _ hrun ih => exact ih.seekItem hindex hrun

end

end IndexedReader

-- ---------------------------------------------------------------------------
-- Indexed files
-- ---------------------------------------------------------------------------

/-- What a writer with an index puts behind the parts of a file. -/
def trailer (before : Bytes) (protocol : Protocol) (parts : List Part) : Bytes :=
  ((fileIndex protocol parts before.length).writes
    (before ++ fileBytes protocol parts).length).flatten

/-- The content is a file with its index, behind `before`. -/
structure IndexedFile (content : Array UInt8) (before : Bytes) (protocol : Protocol)
    (parts : List Part) : Prop where
  fill : Part.Fill protocol.steps parts
  names : (protocol.steps.map Step.name).Nodup
  content_eq : content.toList = before ++ fileBytes protocol parts ++ trailer before protocol parts

/-- Where the part behind `front` starts in a file that starts at a position. -/
def partStart (protocol : Protocol) (start : Nat) (front : List Part) : Nat :=
  start + (Header.bytes protocol.schema).length + (Part.allBytes front).length

namespace IndexedFile

section
variable {content : Array UInt8} {before : Bytes} {protocol : Protocol} {parts : List Part}

theorem drop_header (h : IndexedFile content before protocol parts) :
    content.toList.drop before.length =
      Header.bytes protocol.schema ++ (Part.allBytes parts ++ trailer before protocol parts) := by
  rw [h.content_eq, List.append_assoc, List.drop_left, fileBytes, List.append_assoc]

theorem drop_part (h : IndexedFile content before protocol parts) {front back : List Part}
    (hparts : parts = front ++ back) :
    content.toList.drop (partStart protocol before.length front) =
      Part.allBytes back ++ trailer before protocol parts := by
  rw [partStart, ← List.drop_drop, ← List.drop_drop, h.drop_header, List.drop_left]
  nth_rewrite 1 [hparts]
  rw [Part.allBytes_append, List.append_assoc, List.drop_left]

theorem size_eq (h : IndexedFile content before protocol parts) :
    content.size = partStart protocol before.length parts +
      (trailer before protocol parts).length := by
  rw [← Array.length_toList, h.content_eq, fileBytes, partStart]
  simp only [List.length_append, Nat.add_assoc]

theorem partStart_le (h : IndexedFile content before protocol parts) {front back : List Part}
    (hparts : parts = front ++ back) : partStart protocol before.length front ≤ content.size := by
  rw [h.size_eq, hparts, partStart, partStart, Part.allBytes_append, List.length_append]
  omega

theorem regular (h : IndexedFile content before protocol parts) :
    (fileIndex protocol parts before.length).Regular content.size := by
  refine Part.regular_recordAll (StreamIndex.regular_empty _) _ ?_
  rw [h.size_eq, partStart]
  exact Nat.le_add_right _ _

theorem tells (h : IndexedFile content before protocol parts) {front back : List Part} {part : Part}
    (hparts : parts = front ++ part :: back) {name : String}
    (hstep : protocol.steps[front.length]? = some ⟨name, part.kind⟩) :
    (fileIndex protocol parts before.length).Tells name
      (some (partStart protocol before.length front))
      (part.offsets (partStart protocol before.length front)) part.firsts := by
  have hpart : parts[front.length]? = some part := by
    rw [hparts, List.getElem?_append_right (Nat.le_refl _), Nat.sub_self]
    rfl
  have hfront : parts.take front.length = front := by
    rw [hparts, List.take_left]
  have htells := Part.recordAll_tells h.names (fun step _ => StreamIndex.tells_empty step.name)
    hstep hpart (before.length + (Header.bytes protocol.schema).length)
  rwa [hfront] at htells

theorem step_eq (h : IndexedFile content before protocol parts) {front back : List Part}
    {part : Part} (hparts : parts = front ++ part :: back) :
    ∃ name, protocol.steps[front.length]? = some ⟨name, part.kind⟩ := by
  have hfill := h.fill
  rw [hparts] at hfill
  obtain ⟨first, second, hsteps, hfirst, hsecond⟩ := hfill.append
  obtain ⟨name, rest, rfl, -⟩ := hsecond.cons
  refine ⟨name, ?_⟩
  rw [hsteps, hfirst.length_eq, List.getElem?_append_right (Nat.le_refl _), Nat.sub_self]
  rfl

end

end IndexedFile

namespace IndexedReader

/-- What opening comes to, in terms of what it does to the input. -/
theorem open_eq [SeekableInput σ] (protocol : Protocol) (input : σ) :
    IndexedReader.open protocol input =
      match Header.read.exec input with
      | .error error _ => .error error
      | .ok header input =>
        match protocol.versionOf header.schema with
        | .error error => .error error
        | .ok version =>
          match StreamIndex.load input with
          | .error error _ => .error error
          | .ok index input =>
            .ok { reader := { input, order := { protocol }, version }, index } := by
  unfold IndexedReader.open Reader.open
  cases Header.read.exec input with
  | error error input => rfl
  | ok header input =>
    dsimp only
    cases protocol.versionOf header.schema with
    | error error => rfl
    | ok version =>
      dsimp only [Reader.onInput]
      cases StreamIndex.load input with
      | error error input => rfl
      | ok index input => rfl

section
variable {r : IndexedReader InputStream} {protocol : Protocol} {version : Nat}
  {content : Array UInt8} {before : Bytes} {parts front back : List Part}

/-- A content opens with the index that it stores. -/
theorem open_stored {index : StreamIndex} {p : Nat} {rest : Bytes}
    (hheader : content.toList.drop p = Header.bytes protocol.schema ++ rest)
    (hschema : (utf8 protocol.schema).length ≤ Header.maxSchemaBytes)
    (hindex : index.StoredIn content.toList) {input : InputStream} (hover : input.Over content p) :
    ∃ r₀ version, IndexedReader.open protocol input = .ok r₀ ∧
      r₀.Stands protocol version index content ∧ r₀.reader.order = ⟨protocol, .at 0⟩ ∧
      r₀.reader.remaining = 0 ∧
      r₀.reader.input.Over content (p + (Header.bytes protocol.schema).length) := by
  obtain ⟨input₁, h₁, hover₁⟩ := hover.exec_front hheader (Header.run_read hschema _)
  obtain ⟨version, hversion⟩ := protocol.versionOf_schema
  obtain ⟨input₂, h₂, hplaced⟩ := StreamIndex.load_stored hover₁.placed hindex
  have hover₂ := hplaced.over hover₁.le
  refine ⟨⟨{ input := input₂, order := { protocol }, version }, index⟩, version, ?_,
    ⟨rfl, rfl, rfl, _, hover₂⟩, rfl, rfl, hover₂⟩
  simp only [open_eq, h₁, Header.ofSchema, hversion, h₂]

/-- A file opens with its index. Its steps need not have names of their own for that. -/
theorem open_behind
    (hcontent : content.toList =
      before ++ fileBytes protocol parts ++ trailer before protocol parts)
    (hschema : (utf8 protocol.schema).length ≤ Header.maxSchemaBytes) {input : InputStream}
    (hover : input.Over content before.length) :
    ∃ r₀ version, IndexedReader.open protocol input = .ok r₀ ∧
      r₀.Stands protocol version (fileIndex protocol parts before.length) content ∧
      r₀.reader.order = ⟨protocol, .at 0⟩ ∧
      r₀.reader.Before protocol 0 (partStart protocol before.length [])
        (Part.allBytes parts ++ trailer before protocol parts) := by
  have hheader : content.toList.drop before.length =
      Header.bytes protocol.schema ++ (Part.allBytes parts ++ trailer before protocol parts) := by
    rw [hcontent, List.append_assoc, List.drop_left, fileBytes, List.append_assoc]
  have hregular : (fileIndex protocol parts before.length).Regular content.size := by
    refine Part.regular_recordAll (StreamIndex.regular_empty _) _ ?_
    rw [← Array.length_toList, hcontent, fileBytes]
    simp only [List.length_append]
    omega
  have hstored := hregular.storedIn hover.short (by rw [hcontent, trailer])
  obtain ⟨r₀, version, hopen, hstands, horder, hremaining, hover₀⟩ :=
    open_stored hheader hschema hstored hover
  have hahead := hover₀.ahead
  rw [← List.drop_drop, hheader, List.drop_left] at hahead
  exact ⟨r₀, version, hopen, hstands, horder, ⟨_, horder, .inl rfl⟩, hremaining, hahead⟩

theorem open_ok (hfile : IndexedFile content before protocol parts)
    (hschema : (utf8 protocol.schema).length ≤ Header.maxSchemaBytes) {input : InputStream}
    (hover : input.Over content before.length) :
    ∃ r₀ version, IndexedReader.open protocol input = .ok r₀ ∧
      r₀.Stands protocol version (fileIndex protocol parts before.length) content ∧
      r₀.reader.order = ⟨protocol, .at 0⟩ ∧
      r₀.reader.Before protocol 0 (partStart protocol before.length [])
        (Part.allBytes parts ++ trailer before protocol parts) :=
  open_behind hfile.content_eq hschema hover

variable (hfile : IndexedFile content before protocol parts)
  (h : r.Stands protocol version (fileIndex protocol parts before.length) content)
include hfile h

theorem Stands.seekStep_ok {part : Part} (hparts : parts = front ++ part :: back) :
    ∃ r', IndexedReader.seekStep front.length r = .ok () r' ∧
      r.Jumped r' content (partStart protocol before.length front) front.length 0 := by
  obtain ⟨name, hstep⟩ := hfile.step_eq hparts
  have htells := hfile.tells hparts hstep
  have hname : r.stepName front.length = .ok name := by
    simp only [stepName, h.protocol_eq, Protocol.step?, hstep]
  have hoffset : r.index.stepOffset name = .ok (partStart protocol before.length front) := by
    simp only [StreamIndex.stepOffset, h.index_eq, htells.start_eq]
  rw [seekStep_run hname hoffset]
  exact h.jump_ok (hfile.partStart_le hparts) _ _

theorem Stands.streamName_ok {batches : List (Batch type)}
    (hparts : parts = front ++ .stream type batches :: back) :
    ∃ name, r.streamName front.length = .ok name ∧
      protocol.steps[front.length]? = some ⟨name, .stream⟩ ∧
      r.index.count name = (Batch.items batches).length := by
  obtain ⟨name, hstep⟩ := hfile.step_eq hparts
  have htells := hfile.tells hparts hstep
  refine ⟨name, ?_, hstep, ?_⟩
  · have hkind : r.reader.order.protocol.stepOfKind front.length .stream = .ok ⟨name, .stream⟩ := by
      simp only [Protocol.stepOfKind, Protocol.step?, h.protocol_eq, hstep, Part.kind, if_true]
    simp only [streamName, hkind]
    rfl
  · rw [StreamIndex.count, h.index_eq, htells.items_eq]
    exact Batch.length_offsets _ _

/-- A jump to an item that there is. The reader is then inside the stream, before the item. -/
theorem Stands.seekItem_ok {batches : List (Batch type)} {k : Nat}
    (hparts : parts = front ++ .stream type batches :: back)
    (hk : k < (Batch.items batches).length) :
    ∃ r', IndexedReader.seekItem front.length k r = .ok true r' ∧
      r'.reader.Streaming protocol front.length ((Batch.items batches).drop k)
        (partStart protocol before.length front + (Batch.streamBytes batches).length)
        (Part.allBytes back ++ trailer before protocol parts) := by
  obtain ⟨name, hname, hstep, hcount⟩ := h.streamName_ok hfile hparts
  have htells := hfile.tells hparts hstep
  obtain ⟨skipped, run, later, hlocated⟩ :=
    Batch.locate hk (partStart protocol before.length front) 0
  have hfind := StreamIndex.Tells.find htells hlocated
  have hbytes := hlocated.bytes_eq
  have hdrop : content.toList.drop (partStart protocol before.length front + skipped.length) =
      run.flatMap Datum.bytes ++ (later.flatMap Batch.bytes ++
        (varint 0 ++ (Part.allBytes back ++ trailer before protocol parts))) := by
    rw [← List.drop_drop, hfile.drop_part hparts, Part.allBytes_cons, Part.bytes, hbytes,
      Batch.streamBytes]
    simp only [List.append_assoc, List.drop_left]
  have hoffset : partStart protocol before.length front + skipped.length ≤ content.size := by
    have hend : parts = front ++ [.stream type batches] ++ back := by
      rw [hparts, List.append_assoc]
      rfl
    have hle := hfile.partStart_le hend
    have hone : Part.allBytes [.stream type batches] = Batch.streamBytes batches :=
      List.append_nil _
    have hskipped := congrArg List.length hbytes
    rw [List.length_append] at hskipped
    rw [partStart, Part.allBytes_append, List.length_append, hone] at hle
    rw [partStart]
    omega
  obtain ⟨r', hr', hjump⟩ := h.jump_ok hoffset front.length run.length
  rw [← h.index_eq] at hfind
  refine ⟨r', seekItem_run hname (hcount.symm ▸ hk) hfind hr', ?_⟩
  have horder : r'.reader.order = ⟨protocol, .at front.length⟩ := by
    rw [hjump.order, ReadOrder.jump, h.protocol_eq]
  have hahead := hjump.input_over.ahead
  rw [hdrop] at hahead
  refine .inside horder (.inl rfl) hlocated.items_eq ⟨hjump.remaining, hlocated.fits, _, _,
    .inl rfl, ?_, hahead⟩
  rw [hbytes, Batch.streamBytes]
  simp only [List.length_append]
  omega

end

end IndexedReader

-- ---------------------------------------------------------------------------
-- A file
-- ---------------------------------------------------------------------------

namespace Ticks

def types : Nat → Ty
  | 0 => .bool
  | 1 => .unit
  | _ => .int .u16

theorem fits : ∀ call ∈ calls, call.Fits types := by
  have hunit : Ty.unit.Lists .unit .unit := ⟨rfl, rfl⟩
  simp only [calls, List.forall_mem_cons]
  refine ⟨⟨rfl, _, true, rfl, rfl⟩, ⟨rfl, ?_, by decide, trivial⟩,
    ⟨rfl, by simp, by decide, trivial⟩, trivial, ⟨rfl, _, hunit⟩, trivial,
    ⟨rfl, _, 7, by decide, rfl, rfl⟩, trivial, by simp⟩
  simp only [List.forall_mem_cons]
  exact ⟨⟨_, hunit⟩, ⟨_, hunit⟩, by simp⟩

end Ticks

end TypedStream
