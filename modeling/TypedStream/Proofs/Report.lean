import TypedStream.Report
import TypedStream.Proofs.RandomAccess

/-!
# Reports on indexed files

A report on an indexed file says where the payload starts and ends, and lists every step of the
protocol once, with the place where its encoding starts and, of a stream with items, how many calls
have put how many of them (`Report.indexed_file`). The steps are sorted by place. Steps without
bytes share one, and such steps are listed by name: where the protocol has them otherwise, the
report is not in protocol order.

Stability of the sort is what puts steps that share a place in the order of their names, for the
index lists its steps in that order.
-/

namespace TypedStream

-- ---------------------------------------------------------------------------
-- Devices
-- ---------------------------------------------------------------------------

/-- The device once it has been asked for its size. -/
def Source.sized (source : Source) : Source :=
  { source with endSeeks := source.endSeeks.map (· - 1) }

theorem Source.Seekable.sized_eq {source : Source} (h : source.Seekable) :
    source.sized = source := by
  have hcount := h.endSeeks
  obtain ⟨content, pos, chunk, fault, pipe, endSeeks, endFault⟩ := source
  subst hcount
  rfl

/-- What a run has come to, whatever it has left behind. -/
def outcome : EStateM.Result ε σ α → Except ε α
  | .ok value _ => .ok value
  | .error error _ => .error error

namespace Report

/-- A report comes from a stream over the device, or there is none for one of the device's
reasons. -/
theorem ofSource_eq {source : Source} (hshort : source.content.size * 2 < sizeLimit) :
    ofSource source =
      if source.pipe then .error (.io .unsupported)
      else if source.endSeeks = some 0 then .error (Error.ofFault source.endFault)
      else if sizeLimit ≤ source.pos then .error (.io .invalidInput)
      else outcome (ofInput source.content.size
        (InputStream.open source.sized defaultBufferSize source.pos)) := by
  obtain ⟨content, pos, chunk, fault, pipe, endSeeks, endFault⟩ := source
  dsimp only at hshort
  cases pipe with
  | true => rfl
  | false =>
    have hend := @Source.seekEnd_eq ⟨content, pos, chunk, fault, false, endSeeks, endFault⟩ rfl 0
      (by dsimp only; omega)
    have hnonneg : ¬((content.size : Int) + 0 < 0) := by omega
    dsimp only at hend
    rw [if_neg hnonneg, Int.add_zero, Int.toNat_natCast] at hend
    simp only [ofSource, Source.position, hend, Bool.false_eq_true, if_false, bind, Except.bind,
      Except.mapError]
    by_cases hcount : endSeeks = some 0
    · simp only [hcount, if_true]
    simp only [hcount, if_false, Source.seekTo, Bool.false_eq_true]
    by_cases hword : sizeLimit ≤ pos
    · have hfar : (pos : Int) < 0 ∨ (sizeLimit : Int) ≤ pos := by omega
      simp only [hfar, hword, if_true]
      rfl
    · have hnear : ¬((pos : Int) < 0 ∨ (sizeLimit : Int) ≤ pos) := by omega
      simp only [hnear, hword, if_false, Int.toNat_natCast, Source.sized]
      generalize ofInput content.size (InputStream.open _ _ _) = result
      cases result <;> rfl

end Report

-- ---------------------------------------------------------------------------
-- Sorting
-- ---------------------------------------------------------------------------

/-- Entries that a sort cannot tell apart stay in their order. -/
theorem filter_mergeSort {le : α → α → Bool} (htrans : ∀ a b c, le a b → le b c → le a c)
    (htotal : ∀ a b, (le a b || le b a) = true) {p : α → Bool} (hp : ∀ a b, p a → p b → le a b)
    (l : List α) : (l.mergeSort le).filter p = l.filter p := by
  have halike : (l.filter p).Pairwise (le · ·) :=
    List.pairwise_of_forall_mem_list fun a ha b hb =>
      hp a b (List.mem_filter.mp ha).2 (List.mem_filter.mp hb).2
  have hsub := (List.sublist_mergeSort htrans htotal halike List.filter_sublist).filter p
  simp only [List.filter_filter, Bool.and_self] at hsub
  exact (hsub.eq_of_length ((List.mergeSort_perm l le).filter p).length_eq.symm).symm

/-- The first step is listed before the second: by place, and at one place by name. -/
def StepReport.Precedes (a b : StepReport) : Prop :=
  a.offset < b.offset ∨ a.offset = b.offset ∧ compare a.name b.name = .lt

instance (a b : StepReport) : Decidable (a.Precedes b) :=
  inferInstanceAs (Decidable (_ ∨ _))

theorem StepReport.Precedes.asymm {a b : StepReport} (h : a.Precedes b) : ¬ b.Precedes a := by
  rintro (hlt | ⟨heq, hname⟩)
  · rcases h with h | ⟨h, -⟩ <;> omega
  · rcases h with h | ⟨-, hname'⟩
    · omega
    · rw [Assoc.gt_iff_lt.mpr hname] at hname'
      cases hname'

namespace Report

theorem stepReports_perm (index : StreamIndex) :
    (stepReports index).Perm (index.steps.map fun e => stepReport index e.1 e.2) :=
  List.mergeSort_perm _ _

theorem stepReports_pairwise {index : StreamIndex} (h : Assoc.Ascending index.steps) :
    (stepReports index).Pairwise StepReport.Precedes := by
  have hnames : (index.steps.map fun e => stepReport index e.1 e.2).Pairwise
      fun a b => compare a.name b.name = .lt :=
    List.pairwise_map.mpr (Assoc.ascending_iff_pairwise.mp h)
  have htrans : ∀ a b c : StepReport, decide (a.offset ≤ b.offset) = true →
      decide (b.offset ≤ c.offset) = true → decide (a.offset ≤ c.offset) = true := by
    simp only [decide_eq_true_eq]
    exact fun a b c => Nat.le_trans
  have htotal : ∀ a b : StepReport,
      (decide (a.offset ≤ b.offset) || decide (b.offset ≤ a.offset)) = true := by
    simp only [Bool.or_eq_true, decide_eq_true_eq]
    exact fun a b => Nat.le_total _ _
  have hoffsets := List.pairwise_mergeSort htrans htotal
    (index.steps.map fun e => stepReport index e.1 e.2)
  rw [List.pairwise_iff_forall_sublist] at hoffsets hnames ⊢
  intro a b hab
  have hle : a.offset ≤ b.offset := by simpa using hoffsets hab
  rcases Nat.lt_or_eq_of_le hle with hlt | heq
  · exact .inl hlt
  -- Steps at one place stand as in the index.
  have hplace := hab.filter fun step => decide (step.offset = b.offset)
  rw [stepReports, filter_mergeSort htrans htotal (by simp; omega)] at hplace
  simp only [List.filter_cons, heq, decide_true, if_true, List.filter_nil] at hplace
  exact .inr ⟨heq, hnames (hplace.trans List.filter_sublist)⟩

/-- Which of the listings of the same steps is the reported one. -/
theorem stepReports_eq_iff {index : StreamIndex} (h : Assoc.Ascending index.steps)
    {listing : List StepReport} (hperm : (stepReports index).Perm listing) :
    stepReports index = listing ↔ listing.Pairwise StepReport.Precedes := by
  constructor
  · rintro rfl
    exact stepReports_pairwise h
  · intro hlisting
    exact hperm.eq_of_pairwise (fun a b _ _ hab hba => absurd hba hab.asymm)
      (stepReports_pairwise h) hlisting

end Report

-- ---------------------------------------------------------------------------
-- What calls put into a step
-- ---------------------------------------------------------------------------

namespace Part

def itemCount : Part → Nat
  | scalar .. => 0
  | stream _ batches => (Batch.items batches).length

/-- Batches without items make no block. -/
def blockCount : Part → Nat
  | scalar .. => 0
  | stream _ batches => batches.countP fun batch => !batch.data.isEmpty

theorem length_offsets (pos : Nat) (part : Part) : (part.offsets pos).length = part.itemCount := by
  cases part with
  | scalar => rfl
  | stream => exact Batch.length_offsets pos _

theorem length_firsts (part : Part) : part.firsts.length = part.blockCount := by
  have hstream : ∀ {type} (batches : List (Batch type)) (count : Nat),
      (Batch.firsts count batches).length = batches.countP fun batch => !batch.data.isEmpty := by
    intro type batches
    induction batches with
    | nil => exact fun _ => rfl
    | cons batch batches ih =>
      intro count
      by_cases hdata : batch.data = []
      · rw [Batch.firsts_nil hdata, ih, List.countP_cons_of_neg (by simp [hdata])]
      · rw [Batch.firsts_cons hdata, List.length_cons, ih,
          List.countP_cons_of_pos (by simpa using hdata)]
  cases part with
  | scalar => rfl
  | stream => exact hstream _ 0

end Part

/-- The call puts items into the step. -/
def WriteCall.putsInto (step : Nat) (call : WriteCall) : Bool := !(call.itemsFor step).isEmpty

namespace Script

variable {i k : Nat} {parts : List Part} {part : Part} {calls : List WriteCall}

/-- The number of items in a part and of its blocks, against the calls. -/
def Tallied (part : Part) (step : Nat) (calls : List WriteCall) : Prop :=
  part.itemCount = (calls.flatMap (WriteCall.itemsFor step)).length ∧
    part.blockCount = calls.countP (WriteCall.putsInto step)

theorem Tallied.other {call : WriteCall} {step : Nat} (h : Tallied part step calls)
    (hcall : call.itemsFor step = []) : Tallied part step (call :: calls) := by
  refine ⟨?_, ?_⟩
  · rw [List.flatMap_cons, hcall]
    exact h.1
  · rw [List.countP_cons_of_neg (by simp [WriteCall.putsInto, hcall])]
    exact h.2

theorem Tallied.batch {call : WriteCall} {step : Nat} {batch : Batch type}
    {batches : List (Batch type)} (h : Tallied (.stream type batches) step calls)
    (hcall : call.itemsFor step = batch.data.map Datum.written) :
    Tallied (.stream type (batch :: batches)) step (call :: calls) := by
  obtain ⟨hitems, hblocks⟩ := h
  rw [Part.itemCount] at hitems
  rw [Part.blockCount] at hblocks
  refine ⟨?_, ?_⟩
  · rw [Part.itemCount, Batch.items_cons, List.length_append, hitems, List.flatMap_cons,
      List.length_append, hcall, List.length_map]
  · rw [Part.blockCount, List.countP_cons, List.countP_cons, hblocks, WriteCall.putsInto, hcall,
      List.isEmpty_map]

theorem tallied_before (h : Script (i + 1) parts calls) (hitems : part.itemCount = 0)
    (hblocks : part.blockCount = 0) : Tallied part i calls := by
  have hnone := h.itemsFor_before (Nat.lt_succ_self i)
  refine ⟨by rw [hitems, hnone]; rfl, ?_⟩
  rw [hblocks, eq_comm]
  refine List.countP_eq_zero.mpr fun call hcall => ?_
  simp [WriteCall.putsInto, List.flatMap_eq_nil_iff.mp hnone call hcall]

/-- A part has the items that calls put into its step, and a block for each such call. -/
theorem tallied (h : Script i parts calls) (hpart : parts[k]? = some part) :
    Tallied part (i + k) calls := by
  induction h generalizing k part with
  | nil => cases hpart
  | flush _ ih => exact (ih hpart).other rfl
  | scalar hrest ih =>
    cases k with
    | zero =>
      cases hpart
      exact (hrest.tallied_before rfl rfl).other rfl
    | succ k =>
      rw [← Nat.succ_add_eq_add_succ]
      exact (ih hpart).other rfl
  | item _ ih =>
    cases k with
    | zero =>
      cases hpart
      exact (@ih 0 _ rfl).batch (if_pos rfl)
    | succ k => exact (@ih (k + 1) _ hpart).other (if_neg (by omega))
  | items _ ih =>
    cases k with
    | zero =>
      cases hpart
      exact (@ih 0 _ rfl).batch (if_pos rfl)
    | succ k => exact (@ih (k + 1) _ hpart).other (if_neg (by omega))
  | endStream hrest ih =>
    cases k with
    | zero =>
      cases hpart
      exact (hrest.tallied_before rfl rfl).other rfl
    | succ k =>
      rw [← Nat.succ_add_eq_add_succ]
      exact (ih hpart).other rfl

end Script

-- ---------------------------------------------------------------------------
-- The steps of a file
-- ---------------------------------------------------------------------------

/-- What there is to say of the steps of a file, in the order of the protocol: where the encoding
of each starts and, if calls have put items into it, how many and how many calls. -/
def stepListing (protocol : Protocol) (start : Nat) (parts : List Part) (calls : List WriteCall) :
    List StepReport :=
  protocol.steps.mapIdx fun i step =>
    let items := (calls.flatMap (WriteCall.itemsFor i)).length
    { name := step.name
      offset := partStart protocol start (parts.take i)
      stream := if 0 < items then some (items, calls.countP (WriteCall.putsInto i)) else none }

theorem stepListing_offsets (protocol : Protocol) (start : Nat) (parts : List Part)
    (calls : List WriteCall) :
    (stepListing protocol start parts calls).Pairwise fun a b => a.offset ≤ b.offset := by
  refine List.pairwise_iff_getElem.mpr fun i j hi hj hij => ?_
  simp only [stepListing, List.getElem_mapIdx, partStart]
  have hprefix := List.take_prefix_take_left (l := parts) (Nat.le_of_lt hij)
  obtain ⟨more, hmore⟩ := hprefix
  rw [← hmore, Part.allBytes_append, List.length_append]
  omega

namespace IndexedFile

variable {content : Array UInt8} {before : Bytes} {protocol : Protocol} {parts : List Part}

theorem tells_step (h : IndexedFile content before protocol parts) {i : Nat}
    (hi : i < protocol.steps.length) :
    ∃ part, parts[i]? = some part ∧
      (fileIndex protocol parts before.length).Tells protocol.steps[i].name
        (some (partStart protocol before.length (parts.take i)))
        (part.offsets (partStart protocol before.length (parts.take i))) part.firsts := by
  have hlength : i < parts.length := by rwa [h.fill.length_eq]
  refine ⟨parts[i], List.getElem?_eq_getElem hlength, ?_⟩
  exact Part.recordAll_tells h.names (fun step _ => StreamIndex.tells_empty step.name)
    (List.getElem?_eq_getElem hi) (List.getElem?_eq_getElem hlength) _

/-- The index of a file lists every step once. -/
theorem steps_perm (h : IndexedFile content before protocol parts) :
    (fileIndex protocol parts before.length).steps.Perm (protocol.steps.mapIdx fun i step =>
      (step.name, partStart protocol before.length (parts.take i))) := by
  have hascend := h.regular.steps_ascend
  have hnodup' : (protocol.steps.mapIdx fun i step =>
      (step.name, partStart protocol before.length (parts.take i))).Nodup := by
    have hnames : (protocol.steps.mapIdx fun i step =>
        (step.name, partStart protocol before.length (parts.take i))).map Prod.fst =
          protocol.steps.map Step.name := List.ext_getElem (by simp) (by simp)
    have hdistinct := h.names
    rw [← hnames] at hdistinct
    exact List.Pairwise.of_map Prod.fst (fun a b hne heq => hne (congrArg Prod.fst heq)) hdistinct
  refine (List.perm_ext_iff_of_nodup (Assoc.nodup_of_ascending hascend) hnodup').mpr fun e => ?_
  rw [List.mem_mapIdx]
  constructor
  · intro he
    have hfound := Assoc.find?_of_mem hascend he
    by_cases hname : e.1 ∈ protocol.steps.map Step.name
    · obtain ⟨step, hstep, hname⟩ := List.mem_map.mp hname
      obtain ⟨i, hi, rfl⟩ := List.getElem_of_mem hstep
      obtain ⟨part, -, htells⟩ := h.tells_step hi
      have hstart := htells.start_eq
      rw [hname, hfound] at hstart
      exact ⟨i, hi, Prod.ext hname (Option.some.inj hstart).symm⟩
    · have hnone := (Part.tells_recordAll_ne (StreamIndex.tells_empty e.1) hname
        (before.length + (Header.bytes protocol.schema).length) parts).start_eq
      cases hfound.symm.trans hnone
  · rintro ⟨i, hi, rfl⟩
    obtain ⟨part, -, htells⟩ := h.tells_step hi
    exact Assoc.mem_of_find? htells.start_eq

/-- What is reported of the steps is what there is to say of them. -/
theorem stepReports_perm (h : IndexedFile content before protocol parts) {calls : List WriteCall}
    (hscript : Script 0 parts calls) :
    (Report.stepReports (fileIndex protocol parts before.length)).Perm
      (stepListing protocol before.length parts calls) := by
  refine (Report.stepReports_perm _).trans ((h.steps_perm.map _).trans (.of_eq ?_))
  refine List.ext_getElem (by simp [stepListing]) fun i _ hi => ?_
  rw [stepListing, List.length_mapIdx] at hi
  obtain ⟨part, hpart, htells⟩ := h.tells_step hi
  obtain ⟨hitems, hblocks⟩ := hscript.tallied hpart
  rw [Nat.zero_add] at hitems hblocks
  simp only [stepListing, List.getElem_map, List.getElem_mapIdx, Report.stepReport,
    StreamIndex.count, StreamIndex.blockCount, htells.items_eq, htells.blocks_eq,
    Part.length_offsets, Part.length_firsts, hitems, hblocks]

/-- Where the index starts is where the payload ends, and what the last bytes of the file say. -/
theorem pointer_eq (h : IndexedFile content before protocol parts)
    (hshort : content.size * 2 < sizeLimit) :
    StreamIndex.pointer content.toList = partStart protocol before.length parts := by
  have hsize : content.toList.length < sizeLimit := by
    rw [Array.length_toList]
    omega
  have hcontent := h.content_eq
  rw [trailer] at hcontent
  rw [StreamIndex.pointer_of_writes hsize hcontent, fileBytes, partStart]
  simp only [List.length_append, Nat.add_assoc]

variable {s : InputStream} {p : Nat}

theorem indexReport_ok (h : IndexedFile content before protocol parts) (hover : s.Over content p)
    (index : StreamIndex) :
    ∃ t, Report.indexReport index s =
      .ok ⟨partStart protocol before.length parts, Report.stepReports index⟩ t := by
  have hlong : StreamIndex.pointerBytes ≤ content.toList.length := by
    rw [h.content_eq, trailer, StreamIndex.flatten_writes]
    simp only [List.length_append, length_littleEndian]
    omega
  obtain ⟨s₁, h₁, hover₁⟩ := StreamIndex.seekPointer_ok hover.placed hlong
  obtain ⟨s₂, h₂, -⟩ := StreamIndex.readPointer_ok hover₁ hlong
  rw [h.pointer_eq hover.short] at h₂
  exact ⟨s₂, bind_ok.mpr ⟨_, s₁, StreamIndex.seekPointer_inv h₁, bind_ok.mpr ⟨_, s₂, h₂, rfl⟩⟩⟩

end IndexedFile

-- ---------------------------------------------------------------------------
-- Reports
-- ---------------------------------------------------------------------------

namespace Report

theorem ofSource_file {source : Source} {before : Bytes} {protocol : Protocol} {parts : List Part}
    (hfile : IndexedFile source.content before protocol parts)
    (hschema : (utf8 protocol.schema).length ≤ Header.maxSchemaBytes) (hsource : source.Seekable)
    (hshort : source.content.size * 2 < sizeLimit) (hpos : source.pos = before.length) :
    ofSource source = .ok
      { fileSize := source.content.size
        formatVersion := Header.formatVersion
        schema := protocol.schema
        payloadOffset := partStart protocol before.length []
        index := some ⟨partStart protocol before.length parts,
          stepReports (fileIndex protocol parts before.length)⟩ } := by
  have hle : source.pos ≤ source.content.size := by
    have hstart := hfile.partStart_le (List.nil_append parts).symm
    rw [partStart] at hstart
    omega
  have hover := InputStream.over_open hsource hshort hle defaultBufferSize
  rw [hpos] at hover
  obtain ⟨s₁, h₁, hover₁⟩ := hover.exec_front hfile.drop_header (Header.run_read hschema _)
  obtain ⟨s₂, h₂, hover₂⟩ := StreamIndex.load_ok hover₁ hfile.regular hfile.content_eq
  obtain ⟨s₃, h₃⟩ := hfile.indexReport_ok hover₂ (fileIndex protocol parts before.length)
  have hfind : findIndex s₁ = .ok (some (fileIndex protocol parts before.length)) s₂ := by
    simp only [findIndex, h₂]
  have hstand : ByteInput.pos s₁ = partStart protocol before.length [] := hover₁.pos_eq
  rw [ofSource_eq hshort, hsource.pipe, hsource.endSeeks, if_neg (by simp), if_neg (by simp),
    if_neg (by omega), hsource.sized_eq, hpos]
  have hreport : ofInput source.content.size
      (InputStream.open source defaultBufferSize before.length) = .ok _ s₃ :=
    bind_ok.mpr ⟨_, s₁, h₁, bind_ok.mpr ⟨s₁, s₁, rfl, bind_ok.mpr ⟨_, s₂, hfind,
      bind_ok.mpr ⟨_, s₃, h₃, rfl⟩⟩⟩⟩
  rw [hreport, hstand]
  rfl

/-- The report on a file whose writer kept an index, started behind whatever the sink held. The
steps come sorted by place, and by name where they share one: in protocol order exactly if steps
that share a place have their names in order. -/
theorem indexed_file {protocol : Protocol} {types : Nat → Ty} {calls : List WriteCall}
    {w₀ w₁ : Writer} {sink sink' : Sink} {writeBuffer : Nat}
    (hschema : (utf8 protocol.schema).length ≤ Header.maxSchemaBytes)
    (hnames : (protocol.steps.map Step.name).Nodup)
    (hopen : Writer.openIndexed protocol sink writeBuffer = .ok w₀)
    (hfits : ∀ call ∈ calls, call.Fits types) (hrun : Writer.runCalls calls w₀ = .ok () w₁)
    (hclose : w₁.close = (.ok (), sink')) (hsize : sink'.bytes.length * 2 < sizeLimit)
    {source : Source} (hsource : source.Seekable) (hcontent : source.content.toList = sink'.bytes)
    (hpos : source.pos = sink.bytes.length) :
    ∃ parts report index, Script 0 parts calls ∧ Part.Typed types 0 parts ∧
      IndexedFile source.content sink.bytes protocol parts ∧
      Report.ofSource source = .ok report ∧ report.fileSize = source.content.size ∧
      report.formatVersion = Header.formatVersion ∧ report.schema = protocol.schema ∧
      report.payloadOffset = (sink.bytes ++ Header.bytes protocol.schema).length ∧
      report.index = some index ∧
      index.offset = (sink.bytes ++ fileBytes protocol parts).length ∧
      report.payloadOffset + report.payloadSize = index.offset ∧
      (∀ front part back, parts = front ++ part :: back →
        part.bytes <+: source.content.toList.drop (partStart protocol sink.bytes.length front)) ∧
      let listing := stepListing protocol sink.bytes.length parts calls
      index.steps.Perm listing ∧ index.steps.Pairwise StepReport.Precedes ∧
      (index.steps = listing ↔
        listing.Pairwise fun a b => a.offset = b.offset → compare a.name b.name = .lt) := by
  obtain ⟨parts, hscript, hfill, htyped, -, hbytes⟩ := Writer.accepted hopen hfits hrun hclose
  have hfile : IndexedFile source.content sink.bytes protocol parts :=
    ⟨hfill, hnames, hcontent.trans hbytes⟩
  have hshort : source.content.size * 2 < sizeLimit := by
    rw [← Array.length_toList, hcontent]
    exact hsize
  have hascend := hfile.regular.steps_ascend
  have hperm := hfile.stepReports_perm hscript
  refine ⟨parts, _, _, hscript, htyped, hfile, ofSource_file hfile hschema hsource hshort hpos, rfl,
    rfl, rfl, ?_, rfl, ?_, ?_, fun front part back hparts => ?_, hperm,
    stepReports_pairwise hascend, ?_⟩
  · rw [List.length_append]
    rfl
  · rw [partStart, fileBytes, List.length_append, List.length_append, Nat.add_assoc]
  · have hle : partStart protocol sink.bytes.length [] ≤
        partStart protocol sink.bytes.length parts := Nat.add_le_add_left (Nat.zero_le _) _
    exact Nat.add_sub_of_le hle
  · rw [hfile.drop_part hparts, Part.allBytes_cons, List.append_assoc]
    exact List.prefix_append _ _
  · rw [stepReports_eq_iff hascend hperm]
    have hoffsets := stepListing_offsets protocol sink.bytes.length parts calls
    constructor
    · refine fun h => h.imp fun hab heq => ?_
      rcases hab with hlt | ⟨-, hname⟩
      · omega
      · exact hname
    · refine fun h => (hoffsets.and h).imp fun hab => ?_
      rcases Nat.lt_or_eq_of_le hab.1 with hlt | heq
      · exact .inl hlt
      · exact .inr ⟨heq, hab.2 heq⟩

/-- The file of ticks, behind three bytes. -/
theorem indexed_file_ticks :
    ∃ w₀ w₁ sink report index, Writer.openIndexed Ticks.protocol (.ofBytes [1, 2, 3]) 0 = .ok w₀ ∧
      Writer.runCalls Ticks.calls w₀ = .ok () w₁ ∧ w₁.close = (.ok (), sink) ∧
      Report.ofSource { content := sink.bytes.toArray, pos := 3 } = .ok report ∧
      report.index = some index ∧
      (index.steps.map fun step => (step.name, step.stream)).Perm
        [("label", none), ("ticks", some (3, 2)), ("counts", some (1, 1))] := by
  have hsink : (Sink.ofBytes [1, 2, 3]).bytes = [1, 2, 3] := ByteLog.toList_ofList _
  obtain ⟨w₀, h₀, hopened⟩ := Writer.openIndexed_ok Ticks.protocol
    (show (Sink.ofBytes [1, 2, 3]).limit = none from rfl) rfl 0
  obtain ⟨w₁, sink, h₁, hclose, -, hbytes⟩ := hopened.runs_indexed Ticks.fill Ticks.script
  have hlength : sink.bytes.length * 2 < sizeLimit := by
    rw [hbytes, hsink]
    decide +kernel
  have hsource : Source.Seekable { content := sink.bytes.toArray, pos := 3 } :=
    ⟨⟨rfl, by simp⟩, rfl, rfl⟩
  obtain ⟨parts, report, index, -, -, -, hreport, -, -, -, -, hindex, -, -, -, hperm, -⟩ :=
    indexed_file (by decide) (by decide) h₀ Ticks.fits h₁ hclose hlength hsource (by simp)
      (by rw [hsink]; rfl)
  exact ⟨w₀, w₁, sink, report, index, h₀, h₁, hclose, hreport, hindex, hperm.map _⟩

end Report

-- ---------------------------------------------------------------------------
-- A step without bytes
-- ---------------------------------------------------------------------------

namespace Blank

/-- A step without bytes and then a truth value. The name of the first comes second. -/
def protocol : Protocol where
  name := "Blank"
  steps := [⟨"b", .scalar⟩, ⟨"a", .scalar⟩]
  schema := "x"

def parts : List Part := [.scalar .unit Ticks.tick, .scalar .bool Ticks.label]

def calls : List WriteCall := [.step .unit 0 .unit, .step .bool 1 (.bool true)]

theorem fill : Part.Fill protocol.steps parts := rfl

theorem script : Script 0 parts calls := .scalar (.scalar .nil)

def types : Nat → Ty
  | 0 => .unit
  | _ => .bool

theorem fits : ∀ call ∈ calls, call.Fits types := by
  simp only [calls, List.forall_mem_cons]
  exact ⟨⟨rfl, .unit, rfl, rfl⟩, ⟨rfl, _, true, rfl, rfl⟩, by simp⟩

theorem pairwise_steps : ((fileIndex protocol parts 0).steps.map fun e =>
    Report.stepReport (fileIndex protocol parts 0) e.1 e.2).Pairwise StepReport.Precedes := by
  decide +kernel

end Blank

namespace Report

/-- The steps share a place, and the report has them the other way round. -/
theorem indexed_file_blank :
    ¬ ∀ (protocol : Protocol) (types : Nat → Ty) (calls : List WriteCall) (w₀ w₁ : Writer)
      (sink sink' : Sink) (writeBuffer : Nat) (source : Source),
      (utf8 protocol.schema).length ≤ Header.maxSchemaBytes →
      (protocol.steps.map Step.name).Nodup →
      Writer.openIndexed protocol sink writeBuffer = .ok w₀ →
      (∀ call ∈ calls, call.Fits types) → Writer.runCalls calls w₀ = .ok () w₁ →
      w₁.close = (.ok (), sink') →
      sink'.bytes.length * 2 < sizeLimit → source.Seekable →
      source.content.toList = sink'.bytes → source.pos = sink.bytes.length →
      ∃ report index, Report.ofSource source = .ok report ∧ report.index = some index ∧
        index.steps.map StepReport.name = protocol.steps.map Step.name := by
  intro h
  obtain ⟨w₀, h₀, hopened⟩ := Writer.openIndexed_ok Blank.protocol
    (show ({} : Sink).limit = none from rfl) rfl 0
  obtain ⟨w₁, sink, h₁, hclose, -, hbytes⟩ := hopened.runs_indexed Blank.fill Blank.script
  have hlength : sink.bytes.length * 2 < sizeLimit := by
    rw [hbytes]
    decide +kernel
  have hsource : Source.Seekable { content := sink.bytes.toArray } := ⟨⟨rfl, by simp⟩, rfl, rfl⟩
  obtain ⟨report, index, hreport, hindex, hsteps⟩ := h _ _ _ _ _ _ _ _ _ (by decide) (by decide) h₀
    Blank.fits h₁ hclose hlength hsource rfl rfl
  have hfile : IndexedFile sink.bytes.toArray [] Blank.protocol Blank.parts :=
    ⟨Blank.fill, by decide, hbytes⟩
  rw [ofSource_file hfile (by decide) hsource (by simpa using hlength) rfl] at hreport
  cases hreport
  cases hindex
  have hlisted := (stepReports_eq_iff hfile.regular.steps_ascend (stepReports_perm _)).mpr
    Blank.pairwise_steps
  have hnames : (stepReports (fileIndex Blank.protocol Blank.parts 0)).map StepReport.name =
      ["a", "b"] := (congrArg (List.map StepReport.name) hlisted).trans (by decide +kernel)
  exact absurd (hnames.symm.trans hsteps) (by decide)

end Report

end TypedStream
