import TypedStream.Proofs.RoundTrip

/-!
# Truncated files

A file that is cut short reads like the whole file up to the cut. Where the cut is in front of a
block count, the stream ends there, and the reader cannot tell: it finds the later streams empty,
until a later step needs a byte. Anywhere else it finds the input truncated. No read makes a value
of the part of an encoding that is left.
-/

namespace TypedStream

open Lossless (Ahead)

-- ---------------------------------------------------------------------------
-- Going through a file
-- ---------------------------------------------------------------------------

abbrev Form := StepKind × Ty

namespace Reader

variable {σ : Type} [ByteInput σ]

def precede (answers : List Answer) (walk : List Answer × Option Error) :
    List Answer × Option Error := (answers ++ walk.1, walk.2)

theorem precede_append (answers more : List Answer) (walk : List Answer × Option Error) :
    precede (answers ++ more) walk = precede answers (precede more walk) := by
  simp only [precede, List.append_assoc]

/-- Goes through the steps in order, streams item by item to their end, until a read fails.
Returns what the reads returned and the error of the last one. -/
def walk : List Form → Nat → Reader σ → List Answer × Option Error
  | [], _, _ => ([], none)
  | (.scalar, type) :: forms, i, r =>
    match readStep type.codec .current i r with
    | .ok value r => precede [.value value] (walk forms (i + 1) r)
    | .error error _ => ([], some error)
  | (.stream, type) :: forms, i, r =>
    match _h : readItem type.codec .current i r with
    | .ok (some item) r => precede [.item (some item)] (walk ((.stream, type) :: forms) i r)
    | .ok none r => precede [.item none] (walk forms (i + 1) r)
    | .error error _ => ([], some error)
termination_by forms _ r => (forms.length, ByteInput.left r.input, r.remaining)
decreasing_by
  · exact Prod.Lex.left _ _ (Nat.lt_succ_self _)
  · exact Prod.Lex.right _ (behind_of_readItem _h)
  · exact Prod.Lex.left _ _ (Nat.lt_succ_self _)

section
variable {type : Ty} {forms : List Form} {i : Nat} {r r' : Reader σ} {error : Error}

theorem walk_value {value : Value} (h : readStep type.codec .current i r = .ok value r') :
    walk ((.scalar, type) :: forms) i r = precede [.value value] (walk forms (i + 1) r') := by
  rw [walk, h]

theorem walk_value_error (h : readStep type.codec .current i r = .error error r') :
    walk ((.scalar, type) :: forms) i r = ([], some error) := by
  rw [walk, h]

theorem walk_item {item : Value} (h : readItem type.codec .current i r = .ok (some item) r') :
    walk ((.stream, type) :: forms) i r =
      precede [.item (some item)] (walk ((.stream, type) :: forms) i r') := by
  rw [walk]
  split <;> simp_all

theorem walk_end (h : readItem type.codec .current i r = .ok none r') :
    walk ((.stream, type) :: forms) i r = precede [.item none] (walk forms (i + 1) r') := by
  rw [walk]
  split <;> simp_all

theorem walk_item_error (h : readItem type.codec .current i r = .error error r') :
    walk ((.stream, type) :: forms) i r = ([], some error) := by
  rw [walk]
  split <;> simp_all

theorem walk_congr (h : readItem type.codec .current i r = readItem type.codec .current i r') :
    walk ((.stream, type) :: forms) i r = walk ((.stream, type) :: forms) i r' := by
  cases hr : readItem type.codec .current i r' with
  | ok item r'' =>
    rw [hr] at h
    cases item with
    | none => rw [walk_end h, walk_end hr]
    | some item => rw [walk_item h, walk_item hr]
  | error error r'' => rw [walk_item_error (h.trans hr), walk_item_error hr]

end

end Reader

namespace Part

def form : Part → Form
  | scalar type _ => (.scalar, type)
  | stream type _ => (.stream, type)

/-- What going through the parts returns where the input has ended. The streams end, and of the
values only those are read that take up no bytes. -/
def endedResults : List Part → List Answer × Option Error
  | [] => ([], none)
  | scalar _ datum :: parts =>
    if datum.bytes = [] then Reader.precede [.value datum.value] (endedResults parts)
    else ([], some .endOfStream)
  | stream _ _ :: parts => Reader.precede [.item none] (endedResults parts)

end Part

namespace Reader

variable {σ : Type} [ByteInput σ] [Lossless σ]

section
variable {r : Reader σ} {protocol : Protocol} {i : Nat} {name : String} {forms : List Form}

theorem walk_streaming (forms : List Form) {data : List (Datum type)} {stop : Nat} {tail : Bytes}
    (hstep : protocol.steps[i]? = some ⟨name, .stream⟩)
    (h : r.Streaming protocol i data stop tail) :
    ∃ r' : Reader σ, r'.Before protocol (i + 1) stop tail ∧
      walk ((.stream, type) :: forms) i r =
        precede (Datum.results data ++ [.item none]) (walk forms (i + 1) r') := by
  induction data generalizing r with
  | nil =>
    obtain ⟨r', hr', -, hbefore⟩ := readItem_end hstep h
    exact ⟨r', hbefore, walk_end hr'⟩
  | cons datum data ih =>
    obtain ⟨r₁, h₁, hstreaming⟩ := readItem_run hstep h
    obtain ⟨r₂, hbefore, hwalk⟩ := ih hstreaming
    refine ⟨r₂, hbefore, ?_⟩
    rw [walk_item h₁, hwalk, ← precede_append]
    rfl

theorem walk_part (forms : List Form) {part : Part} {pos : Nat} {tail : Bytes}
    (hstep : protocol.steps[i]? = some ⟨name, part.kind⟩)
    (h : r.Before protocol i pos (part.bytes ++ tail)) :
    ∃ r' : Reader σ, r'.Before protocol (i + 1) (pos + part.bytes.length) tail ∧
      walk (part.form :: forms) i r = precede part.results (walk forms (i + 1) r') := by
  cases part with
  | scalar type datum =>
    obtain ⟨r', hr', -, hbefore⟩ := readStep_run hstep h
    exact ⟨r', hbefore, walk_value hr'⟩
  | stream type batches => exact walk_streaming forms hstep h.streaming_bytes

theorem walk_parts (forms : List Form) {parts : List Part} {steps : List Step} {pos : Nat}
    {tail : Bytes}
    (hsteps : steps <+: protocol.steps.drop i) (hfill : Part.Fill steps parts)
    (h : r.Before protocol i pos (Part.allBytes parts ++ tail)) :
    ∃ r' : Reader σ,
      r'.Before protocol (i + parts.length) (pos + (Part.allBytes parts).length) tail ∧
      walk (parts.map Part.form ++ forms) i r =
        precede (Part.allResults parts) (walk forms (i + parts.length) r') := by
  induction parts generalizing r i pos steps with
  | nil => exact ⟨r, h, rfl⟩
  | cons part parts ih =>
    obtain ⟨name, rest, rfl, hparts⟩ := hfill.cons
    obtain ⟨hstep, hrest⟩ := Part.drop_cons hsteps
    rw [Part.allBytes_cons, List.append_assoc] at h
    obtain ⟨r₁, hbefore, hwalk⟩ := walk_part _ hstep h
    obtain ⟨r₂, hbefore', hwalk'⟩ := ih hrest hparts hbefore
    rw [Nat.succ_add_eq_add_succ] at hbefore' hwalk'
    refine ⟨r₂, ?_, ?_⟩
    · rw [Part.allBytes_cons, List.length_append, ← Nat.add_assoc]
      exact hbefore'
    · rw [List.map_cons, List.cons_append, hwalk, hwalk', ← precede_append,
        ← Part.allResults_cons]
      rfl

-- ---------------------------------------------------------------------------
-- Cuts
-- ---------------------------------------------------------------------------

/-- A reader in stream `i` with only the first `cut` bytes left of what is to come: the items of
`run`, the batches and the end of the stream. -/
structure Cut (r : Reader σ) (protocol : Protocol) (i : Nat) (run : List (Datum type))
    (batches : List (Batch type)) (cut : Nat) : Prop where
  order : ∃ place, r.order = ⟨protocol, place⟩ ∧ place.Faces i
  remaining : r.remaining = run.length
  ahead : ∃ pos, Ahead r.input pos
    ((run.flatMap Datum.bytes ++ Batch.streamBytes batches).take cut)

/-- A cut at no block count. -/
def OffCount (run : List (Datum type)) (batches : List (Batch type)) (cut : Nat) : Prop :=
  ∀ j ≤ batches.length,
    cut ≠ (run.flatMap Datum.bytes).length + ((batches.take j).flatMap Batch.bytes).length

theorem OffCount.behind_item {datum : Datum type} {run : List (Datum type)}
    {batches : List (Batch type)} {cut : Nat} (h : OffCount (datum :: run) batches cut)
    (hle : datum.bytes.length ≤ cut) : OffCount run batches (cut - datum.bytes.length) := by
  intro j hj
  have := h j hj
  rw [List.flatMap_cons, List.length_append] at this
  omega

theorem OffCount.behind_empty {batch : Batch type} {batches : List (Batch type)} {cut : Nat}
    (h : OffCount [] (batch :: batches) cut) (hdata : batch.data = []) :
    OffCount [] batches cut := by
  intro j hj
  have := h (j + 1) (Nat.succ_le_succ hj)
  rwa [List.take_succ_cons, List.flatMap_cons, Batch.bytes_nil hdata, List.nil_append] at this

theorem OffCount.behind_count {batch : Batch type} {batches : List (Batch type)} {cut : Nat}
    (h : OffCount [] (batch :: batches) cut) (hdata : batch.data ≠ [])
    (hle : (varint batch.data.length).length ≤ cut) :
    OffCount batch.data batches (cut - (varint batch.data.length).length) := by
  intro j hj
  have := h (j + 1) (Nat.succ_le_succ hj)
  rw [List.take_succ_cons, List.flatMap_cons, Batch.bytes_eq hdata] at this
  simp only [List.length_append, List.flatMap_nil, List.length_nil] at this
  omega

theorem readStep_cut {datum : Datum type} {pos cut : Nat}
    (hstep : protocol.steps[i]? = some ⟨name, .scalar⟩)
    (h : r.Before protocol i pos (datum.bytes.take cut)) (hcut : cut < datum.bytes.length) :
    ∃ r', readStep type.codec .current i r = .error .endOfStream r' := by
  obtain ⟨place, ho, hfaces⟩ := h.order
  have hp : r.order.protocol = protocol := by rw [ho]
  have hrun := Decoder.run_take_front (datum.read_run []) hcut
  obtain ⟨input, hinput⟩ := exec_of_run_error h.ahead hrun
  refine ⟨{ r with order := ⟨protocol, .at i⟩, input }, ?_⟩
  have hone : onInput (StepDecoder.current.one type.codec).exec
      { r with order := ⟨protocol, .at i⟩ } =
      .error .endOfStream { r with order := ⟨protocol, .at i⟩, input } := onInput_error hinput
  simp only [readStep, bind, EStateM.bind, authorize_run hp hstep, beginScalar_run ho hfaces, hone]

/-- Behind the end of the input. -/
theorem walk_ended {parts : List Part} {steps : List Step} {pos : Nat}
    (hsteps : steps <+: protocol.steps.drop i) (hfill : Part.Fill steps parts)
    (h : r.Before protocol i pos []) :
    walk (parts.map Part.form) i r = Part.endedResults parts := by
  induction parts generalizing r i pos steps with
  | nil => rw [List.map_nil, walk, Part.endedResults]
  | cons part parts ih =>
    obtain ⟨name, rest, rfl, hparts⟩ := hfill.cons
    obtain ⟨hstep, hrest⟩ := Part.drop_cons hsteps
    cases part with
    | scalar type datum =>
      by_cases hbytes : datum.bytes = []
      · have hdatum : r.Before protocol i pos (datum.bytes ++ []) := by rwa [hbytes]
        obtain ⟨r', hr', -, hbefore⟩ := readStep_run hstep hdatum
        rw [Part.endedResults, if_pos hbytes, ← ih hrest hparts hbefore]
        exact walk_value hr'
      · rw [← datum.bytes.take_zero] at h
        obtain ⟨r', hr'⟩ := readStep_cut hstep h (List.length_pos_iff.mpr hbytes)
        rw [Part.endedResults, if_neg hbytes]
        exact walk_value_error hr'
    | stream type batches =>
      have hnone : r.Before protocol i pos (([] : List (Batch type)).flatMap Batch.bytes ++ []) := h
      obtain ⟨r', hbefore, hwalk⟩ := walk_streaming (parts.map Part.form) hstep
        (hnone.streaming (.inr ⟨rfl, rfl⟩) rfl)
      rw [Part.endedResults, ← ih hrest hparts hbefore]
      exact hwalk

theorem Cut.remaining_ne {datum : Datum type} {run : List (Datum type)}
    {batches : List (Batch type)} {cut : Nat}
    (h : r.Cut protocol i (datum :: run) batches cut) : r.remaining ≠ 0 := by
  rw [h.remaining]
  exact Nat.succ_ne_zero _

/-- A call inside a block does not look for a count. -/
theorem Cut.readItem_open {datum : Datum type} {run : List (Datum type)}
    {batches : List (Batch type)} {cut : Nat} (hstep : protocol.steps[i]? = some ⟨name, .stream⟩)
    (h : r.Cut protocol i (datum :: run) batches cut) :
    readItem type.codec .current i r =
      takeItem type.codec .current i { r with order := ⟨protocol, .at i⟩ } := by
  obtain ⟨place, ho, hfaces⟩ := h.order
  rw [readItem_facing hstep ho hfaces]
  simp only [bind, EStateM.bind, ensureBlock, if_neg h.remaining_ne]

theorem Cut.item {datum : Datum type} {run : List (Datum type)} {batches : List (Batch type)}
    {cut : Nat} (hstep : protocol.steps[i]? = some ⟨name, .stream⟩)
    (h : r.Cut protocol i (datum :: run) batches cut) (hcut : datum.bytes.length ≤ cut) :
    ∃ r', readItem type.codec .current i r = .ok (some datum.value) r' ∧
      r'.Cut protocol i run batches (cut - datum.bytes.length) := by
  obtain ⟨pos, hahead⟩ := h.ahead
  rw [List.flatMap_cons, List.append_assoc, List.take_append,
    List.take_of_length_le hcut] at hahead
  obtain ⟨input, hinput, ha⟩ := exec_front hahead (datum.read_run _)
  have hone : onInput (StepDecoder.current.one type.codec).exec
      { r with order := ⟨protocol, .at i⟩ } =
      .ok datum.value { r with order := ⟨protocol, .at i⟩, input } := onInput_run hinput
  refine ⟨{ r with order := ⟨protocol, .at i⟩, input, remaining := r.remaining - 1 }, ?_,
    ⟨⟨_, rfl, .inl rfl⟩, ?_, _, ha⟩⟩
  · rw [h.readItem_open hstep]
    simp only [takeItem, if_neg h.remaining_ne, hone]
  · show r.remaining - 1 = run.length
    rw [h.remaining]
    rfl

theorem Cut.item_error {datum : Datum type} {run : List (Datum type)}
    {batches : List (Batch type)} {cut : Nat}
    (hstep : protocol.steps[i]? = some ⟨name, .stream⟩)
    (h : r.Cut protocol i (datum :: run) batches cut) (hcut : cut < datum.bytes.length) :
    ∃ r', readItem type.codec .current i r = .error .endOfStream r' := by
  obtain ⟨pos, hahead⟩ := h.ahead
  rw [List.flatMap_cons, List.append_assoc,
    List.take_append_of_le_length (Nat.le_of_lt hcut)] at hahead
  have hrun := Decoder.run_take_front (datum.read_run []) hcut
  obtain ⟨input, hinput⟩ := exec_of_run_error hahead hrun
  have hone : onInput (StepDecoder.current.one type.codec).exec
      { r with order := ⟨protocol, .at i⟩ } =
      .error .endOfStream { r with order := ⟨protocol, .at i⟩, input } := onInput_error hinput
  refine ⟨{ r with order := ⟨protocol, .at i⟩, input }, ?_⟩
  rw [h.readItem_open hstep]
  simp only [takeItem, if_neg h.remaining_ne, hone]

theorem Cut.count {batch : Batch type} {batches : List (Batch type)} {cut : Nat}
    (hstep : protocol.steps[i]? = some ⟨name, .stream⟩)
    (h : r.Cut protocol i [] (batch :: batches) cut) (hdata : batch.data ≠ [])
    (hcut : (varint batch.data.length).length ≤ cut) :
    ∃ r', r'.Cut protocol i batch.data batches (cut - (varint batch.data.length).length) ∧
      readItem type.codec .current i r = readItem type.codec .current i r' := by
  obtain ⟨place, ho, hfaces⟩ := h.order
  obtain ⟨pos, hahead⟩ := h.ahead
  rw [List.flatMap_nil, List.nil_append, Batch.streamBytes_cons, Batch.bytes_eq hdata,
    List.append_assoc, List.take_append, List.take_of_length_le hcut] at hahead
  obtain ⟨input, hinput, ha⟩ := tryVarint_front (varint_ne_nil _) hahead
    (Decoder.run_varint batch.short _)
  let r' : Reader σ :=
    { r with order := ⟨protocol, .at i⟩, input, remaining := batch.data.length }
  have hne : r'.remaining ≠ 0 := Nat.pos_iff_ne_zero.mp (List.length_pos_iff.mpr hdata)
  refine ⟨r', ⟨⟨_, rfl, .inl rfl⟩, rfl, _, ha⟩, ?_⟩
  have hrem : r.remaining = 0 := h.remaining
  have hopen : ensureBlock { r with order := ⟨protocol, .at i⟩ } = .ok () r' := by
    simp only [ensureBlock, if_pos hrem, nextBlock, hinput, Option.getD_some, r']
  have hopened : ensureBlock { r' with order := ⟨protocol, .at i⟩ } = .ok () r' := by
    rw [ensureBlock, if_neg hne]
  rw [readItem_facing hstep ho hfaces, readItem_facing hstep rfl (.inl rfl)]
  simp only [bind, EStateM.bind, hopen, hopened]

theorem Cut.count_error {batch : Batch type} {batches : List (Batch type)} {cut : Nat}
    (hstep : protocol.steps[i]? = some ⟨name, .stream⟩)
    (h : r.Cut protocol i [] (batch :: batches) cut) (hdata : batch.data ≠ []) (hpos : cut ≠ 0)
    (hcut : cut < (varint batch.data.length).length) :
    ∃ r', readItem type.codec .current i r = .error .endOfStream r' := by
  obtain ⟨place, ho, hfaces⟩ := h.order
  obtain ⟨pos, hahead⟩ := h.ahead
  rw [List.flatMap_nil, List.nil_append, Batch.streamBytes_cons, Batch.bytes_eq hdata,
    List.append_assoc, List.take_append_of_le_length (Nat.le_of_lt hcut)] at hahead
  have hne : (varint batch.data.length).take cut ≠ [] := by
    rw [ne_eq, List.take_eq_nil_iff]
    rintro (h0 | hnil)
    · exact hpos h0
    · exact varint_ne_nil _ hnil
  have hrun := Decoder.run_take_front (Decoder.run_varint batch.short []) hcut
  obtain ⟨input, hinput⟩ := tryVarint_fails hne hahead hrun
  have hrem : r.remaining = 0 := h.remaining
  refine ⟨{ r with order := ⟨protocol, .at i⟩, input }, ?_⟩
  rw [readItem_facing hstep ho hfaces]
  simp only [bind, EStateM.bind, ensureBlock, if_pos hrem, nextBlock, hinput]

/-- Going through stream `i` delivers the first of the items, and then finds the input truncated. -/
def Truncates (r : Reader σ) (i : Nat) (forms : List Form) (data : List (Datum type)) : Prop :=
  ∃ got more, data = got ++ more ∧
    walk ((.stream, type) :: forms) i r = (Datum.results got, some .endOfStream)

omit [Lossless σ] in
theorem truncates_error {data : List (Datum type)} {r' : Reader σ}
    (h : readItem type.codec .current i r = .error .endOfStream r') : r.Truncates i forms data :=
  ⟨[], data, rfl, walk_item_error h⟩

theorem Cut.truncates_run {run : List (Datum type)} {batches : List (Batch type)} {cut : Nat}
    (hstep : protocol.steps[i]? = some ⟨name, .stream⟩)
    (hnext : ∀ (r : Reader σ) (cut : Nat), r.Cut protocol i [] batches cut →
      cut < (Batch.streamBytes batches).length →
      OffCount [] batches cut → r.Truncates i forms (Batch.items batches))
    (h : r.Cut protocol i run batches cut)
    (hcut : cut < (run.flatMap Datum.bytes ++ Batch.streamBytes batches).length)
    (hoff : OffCount run batches cut) : r.Truncates i forms (run ++ Batch.items batches) := by
  induction run generalizing r cut with
  | nil => exact hnext r cut h hcut hoff
  | cons datum run ih =>
    by_cases hitem : cut < datum.bytes.length
    · obtain ⟨r', hr'⟩ := h.item_error hstep hitem
      exact truncates_error hr'
    · have hle := Nat.le_of_not_lt hitem
      obtain ⟨r', hr', hcut'⟩ := h.item hstep hle
      rw [List.flatMap_cons, List.append_assoc, List.length_append] at hcut
      obtain ⟨got, more, hdata, hwalk⟩ := ih hcut' (by omega) (hoff.behind_item hle)
      refine ⟨datum :: got, more, ?_, ?_⟩
      · rw [List.cons_append, hdata, List.cons_append]
      · rw [walk_item hr', hwalk]
        rfl

theorem Cut.truncates {run : List (Datum type)} {batches : List (Batch type)} {cut : Nat}
    (hstep : protocol.steps[i]? = some ⟨name, .stream⟩) (h : r.Cut protocol i run batches cut)
    (hcut : cut < (run.flatMap Datum.bytes ++ Batch.streamBytes batches).length)
    (hoff : OffCount run batches cut) : r.Truncates i forms (run ++ Batch.items batches) := by
  -- Block by block; the items of one block are those of `truncates_run`.
  induction batches generalizing r run cut with
  | nil =>
    refine h.truncates_run hstep ?_ hcut hoff
    intro r cut _ hcut hoff
    have hzero : cut = 0 := by simpa [Batch.streamBytes] using hcut
    exact absurd hzero (hoff 0 (Nat.le_refl 0))
  | cons batch batches ih =>
    refine h.truncates_run hstep ?_ hcut hoff
    intro r cut h hcut hoff
    by_cases hdata : batch.data = []
    · -- Nothing has been written of the batch, so the cut is one in what follows.
      obtain ⟨pos, hahead⟩ := h.ahead
      rw [Batch.streamBytes_cons, Batch.bytes_nil hdata, List.nil_append] at hcut hahead
      rw [Batch.items_nil hdata]
      exact ih ⟨h.order, h.remaining, pos, hahead⟩ hcut (hoff.behind_empty hdata)
    · by_cases hcount : cut < (varint batch.data.length).length
      · obtain ⟨r', hr'⟩ := h.count_error hstep hdata (hoff 0 (Nat.zero_le _)) hcount
        exact truncates_error hr'
      · have hle := Nat.le_of_not_lt hcount
        obtain ⟨r', hcut', hread⟩ := h.count hstep hdata hle
        rw [Batch.streamBytes_cons, Batch.bytes_eq hdata, List.append_assoc,
          List.length_append] at hcut
        obtain ⟨got, more, hgot, hwalk⟩ :=
          ih hcut' (by omega) (hoff.behind_count hdata hle)
        exact ⟨got, more, hgot, (walk_congr hread).trans hwalk⟩

end

end Reader

namespace Part

/-- Behind `before` and `j` batches of the stream that comes next, there is a block count. The parts
behind the stream are `after`. -/
structure CountAt (parts before : List Part) (type : Ty) (batches : List (Batch type))
    (after : List Part) (j cut : Nat) : Prop where
  parts_eq : parts = before ++ stream type batches :: after
  le : j ≤ batches.length
  cut_eq : cut = (allBytes before).length + ((batches.take j).flatMap Batch.bytes).length

theorem CountAt.cons {parts before after : List Part} {batches : List (Batch type)} {j cut : Nat}
    (h : CountAt parts before type batches after j cut) (part : Part) :
    CountAt (part :: parts) (part :: before) type batches after j (part.bytes.length + cut) := by
  refine ⟨congrArg _ h.parts_eq, h.le, ?_⟩
  rw [h.cut_eq, allBytes_cons, List.length_append, Nat.add_assoc]

end Part

namespace Reader

variable {σ : Type} [ByteInput σ] [Lossless σ] {r : Reader σ} {protocol : Protocol} {i pos : Nat}

/-- A cut at no block count: the first of the results, and then the input is found truncated. -/
theorem walk_cut {parts : List Part} {steps : List Step} {cut : Nat}
    (hsteps : steps <+: protocol.steps.drop i) (hfill : Part.Fill steps parts)
    (h : r.Before protocol i pos ((Part.allBytes parts).take cut))
    (hcut : cut < (Part.allBytes parts).length)
    (hoff : ∀ before type batches after j,
      ¬ Part.CountAt parts before type batches after j cut) :
    ∃ got more, more ≠ [] ∧ Part.allResults parts = got ++ more ∧
      walk (parts.map Part.form) i r = (got, some .endOfStream) := by
  induction parts generalizing r i pos steps cut with
  | nil => exact absurd hcut (Nat.not_lt_zero _)
  | cons part parts ih =>
    obtain ⟨name, rest, rfl, hparts⟩ := hfill.cons
    obtain ⟨hstep, hrest⟩ := Part.drop_cons hsteps
    rw [Part.allBytes_cons, List.length_append] at hcut
    rw [Part.allBytes_cons] at h
    rw [Part.allResults_cons]
    by_cases hinside : cut < part.bytes.length
    · rw [List.take_append_of_le_length (Nat.le_of_lt hinside)] at h
      cases part with
      | scalar type datum =>
        obtain ⟨r', hr'⟩ := readStep_cut hstep h hinside
        exact ⟨[], _, List.cons_ne_nil _ _, rfl, walk_value_error hr'⟩
      | stream type batches =>
        have hcutoff : OffCount [] batches cut := by
          intro j hj heq
          refine hoff [] type batches parts j ⟨rfl, hj, ?_⟩
          simpa [Part.allBytes] using heq
        have hstart : r.Cut protocol i [] batches cut := ⟨h.order, h.remaining, pos, h.ahead⟩
        obtain ⟨got, more, hdata, hwalk⟩ := hstart.truncates hstep hinside hcutoff
        refine ⟨Datum.results got, Datum.results more ++ [.item none] ++ Part.allResults parts,
          by simp, ?_, hwalk⟩
        rw [List.nil_append] at hdata
        simp only [Part.results, hdata, Datum.results, List.map_append, List.append_assoc]
    · have hle := Nat.le_of_not_lt hinside
      rw [List.take_append, List.take_of_length_le hle] at h
      obtain ⟨r', hbefore, hwalk⟩ := walk_part _ hstep h
      have hoff' : ∀ before type batches after j,
          ¬ Part.CountAt parts before type batches after j (cut - part.bytes.length) := by
        intro before type batches after j hcount
        have hcons := hcount.cons part
        rw [Nat.add_sub_cancel' hle] at hcons
        exact hoff _ _ _ _ _ hcons
      obtain ⟨got, more, hmore, hresults, hwalk'⟩ := ih hrest hparts hbefore (by omega) hoff'
      refine ⟨part.results ++ got, more, hmore, ?_, ?_⟩
      · rw [hresults, List.append_assoc]
      · rw [List.map_cons, hwalk, hwalk']
        rfl

/-- A cut at a block count: all that is in front of it, then the stream has ended, and so has the
input for the parts behind the stream. -/
theorem walk_count {parts before after : List Part} {batches : List (Batch type)} {j cut : Nat}
    {steps : List Step} (hsteps : steps <+: protocol.steps.drop i) (hfill : Part.Fill steps parts)
    (h : r.Before protocol i pos ((Part.allBytes parts).take cut))
    (hcount : Part.CountAt parts before type batches after j cut) :
    walk (parts.map Part.form) i r =
      precede (Part.allResults before ++ Datum.results (Batch.items (batches.take j)) ++
        [.item none]) (Part.endedResults after) := by
  obtain rfl := hcount.parts_eq
  obtain ⟨front, back, rfl, hfront, hback⟩ := hfill.append
  have hfronts : front <+: protocol.steps.drop i := (List.prefix_append _ _).trans hsteps
  have hbytes : (Part.allBytes (before ++ .stream type batches :: after)).take cut =
      Part.allBytes before ++ (batches.take j).flatMap Batch.bytes := by
    rw [Part.allBytes_append, Part.allBytes_cons, Part.bytes, Batch.streamBytes,
      flatMap_split Batch.bytes batches j, hcount.cut_eq]
    simp only [List.append_assoc]
    rw [← List.append_assoc, ← List.length_append, List.take_left]
  rw [hbytes] at h
  obtain ⟨name, rest, rfl, hafter⟩ := hback.cons
  obtain ⟨r₁, hbefore, hwalk⟩ :=
    walk_parts ((.stream, type) :: after.map Part.form) hfronts hfront h
  obtain ⟨hstep, hrest⟩ := Part.drop_cons (Part.drop_append hsteps)
  rw [← hfront.length_eq] at hstep hrest
  rw [← List.append_nil ((batches.take j).flatMap Batch.bytes)] at hbefore
  obtain ⟨r₂, hended, hwalk'⟩ := walk_streaming (after.map Part.form) hstep
    (hbefore.streaming (.inr ⟨rfl, rfl⟩) rfl)
  rw [hwalk', walk_ended hrest hafter hended, ← precede_append, ← List.append_assoc] at hwalk
  rw [List.map_append, List.map_cons]
  exact hwalk

end Reader

-- ---------------------------------------------------------------------------
-- Files
-- ---------------------------------------------------------------------------

theorem fileBytes_take {protocol : Protocol} {parts : List Part} {cut : Nat}
    (h : (Header.bytes protocol.schema).length ≤ cut) :
    (fileBytes protocol parts).take cut = Header.bytes protocol.schema ++
      (Part.allBytes parts).take (cut - (Header.bytes protocol.schema).length) := by
  rw [fileBytes, List.take_append, List.take_of_length_le h]

theorem Reader.open_cut {σ : Type} [ByteInput σ] [Lossless σ] {protocol : Protocol} {input : σ}
    {pos cut : Nat} (hschema : (utf8 protocol.schema).length ≤ Header.maxSchemaBytes)
    (hcut : cut < (Header.bytes protocol.schema).length)
    (h : Ahead input pos ((Header.bytes protocol.schema).take cut)) :
    Reader.open protocol input = .error .endOfStream := by
  have hrun := Decoder.run_take_front (Header.run_read hschema []) hcut
  obtain ⟨input', hinput⟩ := exec_of_run_error h hrun
  simp only [Reader.open, hinput]

/-- A file that is cut short reads like the whole file up to the cut. If the cut is in front of a
block count, the stream ends there, and the steps behind it are read at the end of the input; if it
is anywhere else, the input is found truncated. -/
theorem Script.reads_truncated {protocol : Protocol} {parts : List Part} {calls : List WriteCall}
    (hschema : (utf8 protocol.schema).length ≤ Header.maxSchemaBytes)
    (hfill : Part.Fill protocol.steps parts) (hcalls : Script 0 parts calls) {sink : Sink}
    (hlimit : sink.limit = none) (writeBuffer : Nat) :
    let file := fileBytes protocol parts
    ∃ w₀ w₁ sink', Writer.open protocol sink writeBuffer = .ok w₀ ∧
      Writer.runCalls calls w₀ = .ok () w₁ ∧ w₁.close = (.ok (), sink') ∧
      sink'.bytes = sink.bytes ++ file ∧
      (∀ (source : Source) (readBuffer : Nat), source.Reliable →
        source.content.toList.drop source.pos = file →
        ∃ r, Reader.open protocol (InputStream.open source readBuffer 0) = .ok r ∧
          r.walk (parts.map Part.form) 0 = (Part.allResults parts, none)) ∧
      ∀ cut < file.length, ∀ (source : Source) (readBuffer : Nat), source.Reliable →
        source.content.toList.drop source.pos = file.take cut →
        let header := (Header.bytes protocol.schema).length
        (cut < header →
          Reader.open protocol (InputStream.open source readBuffer 0) = .error .endOfStream) ∧
        (header ≤ cut →
          ∃ r, Reader.open protocol (InputStream.open source readBuffer 0) = .ok r ∧
            ((∀ before type batches after j,
                ¬ Part.CountAt parts before type batches after j (cut - header)) →
              ∃ got more, more ≠ [] ∧ Part.allResults parts = got ++ more ∧
                r.walk (parts.map Part.form) 0 = (got, some .endOfStream)) ∧
            ∀ before type batches after j,
              Part.CountAt parts before type batches after j (cut - header) →
              r.walk (parts.map Part.form) 0 =
                Reader.precede (Part.allResults before ++
                  Datum.results (Batch.items (batches.take j)) ++ [.item none])
                  (Part.endedResults after)) := by
  intro file
  have hsteps : protocol.steps <+: protocol.steps.drop 0 := List.prefix_refl _
  obtain ⟨w₀, w₁, sink', h₀, h₁, hclose, hbytes, -⟩ :=
    Writer.writes_file hfill hcalls hlimit writeBuffer
  refine ⟨w₀, w₁, sink', h₀, h₁, hclose, hbytes, ?_, ?_⟩
  · intro source readBuffer hreliable hfile
    have hahead := InputStream.ahead_open hreliable readBuffer 0
    rw [hfile] at hahead
    obtain ⟨r, hr, hbefore⟩ := Reader.open_run hschema hahead
    rw [← List.append_nil (Part.allBytes parts)] at hbefore
    obtain ⟨r', -, hwalk⟩ := Reader.walk_parts [] hsteps hfill hbefore
    rw [List.append_nil] at hwalk
    refine ⟨r, hr, hwalk.trans ?_⟩
    rw [Reader.walk, Reader.precede, List.append_nil]
  · intro cut hcut source readBuffer hreliable hfile header
    have hahead := InputStream.ahead_open hreliable readBuffer 0
    rw [hfile] at hahead
    refine ⟨fun hheader => ?_, fun hheader => ?_⟩
    · have htake : file.take cut = (Header.bytes protocol.schema).take cut :=
        List.take_append_of_le_length (Nat.le_of_lt hheader)
      rw [htake] at hahead
      exact Reader.open_cut hschema hheader hahead
    · rw [fileBytes_take hheader] at hahead
      obtain ⟨r, hr, hbefore⟩ := Reader.open_run hschema hahead
      refine ⟨r, hr, fun hoff => ?_, fun before type batches after j hcount => ?_⟩
      · refine Reader.walk_cut hsteps hfill hbefore ?_ hoff
        have hlength : file.length = header + (Part.allBytes parts).length := List.length_append
        omega
      · exact Reader.walk_count hsteps hfill hbefore hcount

/-- The file of ticks cut behind its first block, whose two ticks take up no bytes. The stream of
counts behind it is found empty. -/
theorem Script.reads_truncated_ticks :
    ∃ w₀ w₁ sink r, Writer.open Ticks.protocol {} 0 = .ok w₀ ∧
      Writer.runCalls Ticks.calls w₀ = .ok () w₁ ∧ w₁.close = (.ok (), sink) ∧
      Reader.open Ticks.protocol (InputStream.open (.ofBytes (sink.bytes.take 17)) 0 0) = .ok r ∧
      r.walk (Ticks.parts.map Part.form) 0 =
        ([.value (.bool true), .item (some .unit), .item (some .unit), .item none, .item none],
          none) := by
  have hschema : (utf8 Ticks.protocol.schema).length = 5 := by decide
  have hheader : (Header.bytes Ticks.protocol.schema).length = 15 := by
    simp [Header.bytes, Header.writes, hschema, varint, Header.magic]
  have hcount : Part.CountAt Ticks.parts [.scalar .bool Ticks.label] .unit
      [⟨[Ticks.tick, Ticks.tick], by decide, trivial⟩, ⟨[], by decide, trivial⟩,
        .single Ticks.tick] [.stream (.int .u16) [.single Ticks.seven]] 1 (17 - 15) :=
    ⟨rfl, by decide, by simp [varint, Part.allBytes, Part.bytes, Batch.bytes]; rfl⟩
  have hlength : 17 < (fileBytes Ticks.protocol Ticks.parts).length := by
    rw [fileBytes, List.length_append, hheader]
    simp [Ticks.parts, Part.allBytes, Part.bytes, Batch.streamBytes, Batch.bytes, Batch.single,
      varint]
    omega
  obtain ⟨w₀, w₁, sink, h₀, h₁, hclose, hbytes, -, hcut⟩ :=
    Script.reads_truncated (by decide) Ticks.fill Ticks.script
      (show ({} : Sink).limit = none from rfl) 0
  obtain ⟨-, hread⟩ := hcut 17 hlength (.ofBytes (sink.bytes.take 17)) 0
    ⟨rfl, by simp [Source.ofBytes]⟩ (by rw [hbytes]; rfl)
  rw [hheader] at hread
  obtain ⟨r, hr, -, hwalk⟩ := hread (by decide)
  exact ⟨w₀, w₁, sink, r, h₀, h₁, hclose, hr, hwalk _ _ _ _ _ hcount⟩

end TypedStream
