import TypedStream.Proofs.Copying
import TypedStream.Proofs.Order.Writing
import TypedStream.Proofs.RandomAccess
import TypedStream.Proofs.Ty.Forms

/-!
# Copying a file

Copying every step of a file to a fresh writer is writing what the file holds, each stream in
blocks of its buffer's size (`Copier.copies_regrouped`). Of the batches in which the file was
written nothing is left, so files that hold the same are copied to the same bytes, unless there are
hash maps in them: those are read into new maps, which list their entries in another order
(`Copier.copy_relists`).
-/

namespace TypedStream

open SensorLog (chunks)

-- ---------------------------------------------------------------------------
-- What a file holds
-- ---------------------------------------------------------------------------

/-- What a step delivers. In which batches a stream was written does not belong to it. -/
inductive Content where
  | scalar (type : Ty) (value : Value)
  | stream (type : Ty) (items : List Value)

def Part.content : Part → Content
  | .scalar type datum => .scalar type datum.value
  | .stream type batches => .stream type ((Batch.items batches).map Datum.value)

namespace Content

/-- The contents are of the kinds and types that the steps ask for, the first of which is step
`i`. -/
inductive Fit (types : Nat → Ty) : Nat → List Step → List Content → Prop
  | nil {i} : Fit types i [] []
  | scalar {i name steps value contents} : Fit types (i + 1) steps contents →
      Fit types i (⟨name, .scalar⟩ :: steps) (.scalar (types i) value :: contents)
  | stream {i name steps items contents} : Fit types (i + 1) steps contents →
      Fit types i (⟨name, .stream⟩ :: steps) (.stream (types i) items :: contents)

/-- How many items the streams have, one after the other. -/
def counts : List Content → List Nat
  | [] => []
  | scalar .. :: contents => counts contents
  | stream _ items :: contents => items.length :: counts contents

/-- The calls that write contents from step `i` on, each stream in blocks of the step's size. -/
def writes (sizes : Nat → Nat) : Nat → List Content → List WriteCall
  | _, [] => []
  | i, scalar type value :: contents => .step type i value :: writes sizes (i + 1) contents
  | i, stream type items :: contents =>
    (chunks (sizes i) items).map (.items type i) ++ .endStream i :: writes sizes (i + 1) contents

def block (type : Ty) (items : List Value) : Bytes :=
  varint items.length ++ items.flatMap type.codec.encode

def bytes (size : Nat) : Content → Bytes
  | scalar type value => type.codec.encode value
  | stream type items => (chunks size items).flatMap (block type) ++ varint 0

def allBytes (sizes : Nat → Nat) : Nat → List Content → Bytes
  | _, [] => []
  | i, content :: contents => content.bytes (sizes i) ++ allBytes sizes (i + 1) contents

/-- The same contents, with each value in a form in which it can be put down. -/
inductive Lists : Content → Content → Prop
  | scalar {type v w} : type.Lists v w → Lists (.scalar type v) (.scalar type w)
  | stream {type vs ws} : List.Forall₂ type.Lists vs ws → Lists (.stream type vs) (.stream type ws)

theorem Fit.length_eq {types : Nat → Ty} {i : Nat} {steps : List Step} {contents : List Content}
    (h : Fit types i steps contents) : contents.length = steps.length := by
  induction h with
  | nil => rfl
  | scalar _ ih | stream _ ih => exact congrArg _ ih

theorem Fit.fill {types : Nat → Ty} {i : Nat} {steps : List Step} {parts : List Part}
    (h : Fit types i steps (parts.map Part.content)) : Part.Fill steps parts := by
  generalize hparts : parts.map Part.content = contents at h
  induction h generalizing parts with
  | nil =>
    rw [List.map_eq_nil_iff.mp hparts]
    rfl
  | scalar _ ih =>
    obtain ⟨_ | _, rest, rfl, hpart, hrest⟩ := List.map_eq_cons_iff.mp hparts
    · exact congrArg _ (ih hrest)
    · cases hpart
  | stream _ ih =>
    obtain ⟨_ | _, rest, rfl, hpart, hrest⟩ := List.map_eq_cons_iff.mp hparts
    · cases hpart
    · exact congrArg _ (ih hrest)

end Content

theorem chunks_ne_nil {size : Nat} {items block : List α} (h : block ∈ chunks size items) :
    block ≠ [] := by
  fun_induction chunks size items with
  | case1 => cases h
  | case2 items hne ih =>
    rcases List.mem_cons.mp h with rfl | h
    · rw [ne_eq, List.take_eq_nil_iff]
      exact hne
    · exact ih h

-- ---------------------------------------------------------------------------
-- Writing
-- ---------------------------------------------------------------------------

namespace Writer

theorem runCalls_append {calls more : List WriteCall} {w w' : Writer} :
    runCalls (calls ++ more) w = .ok () w' ↔
      ∃ u, runCalls calls w = .ok () u ∧ runCalls more u = .ok () w' := by
  induction calls generalizing w with
  | nil => simp [runCalls, pure_ok]
  | cons call calls ih =>
    simp only [List.cons_append, runCalls, bind_ok, ih]
    grind

theorem runCalls_items (type : Ty) (i : Nat) (blocks : List (List Value)) :
    runCalls (blocks.map (.items type i)) = writeAll type.codec i blocks := by
  induction blocks with
  | nil => rfl
  | cons block blocks ih => simp only [List.map_cons, runCalls, writeAll, runCall, ih]

/-- Non-empty blocks of a stream that is next are put down one after the other. -/
theorem writeAll_puts {w : Writer} {i : Nat} (hlimit : w.out.sink.limit = none)
    (h : w.At i .stream) (type : Ty) {blocks : List (List Value)}
    (hblocks : ∀ block ∈ blocks, block ≠ []) :
    ∃ w' record, writeAll type.codec i blocks w = .ok () w' ∧
      Puts w w' (blocks.flatMap (Content.block type)) record i := by
  induction blocks generalizing w with
  | nil =>
    obtain ⟨hnext, name, hstep⟩ := h
    exact ⟨w, _, rfl, ComesTo.puts_nothing ⟨hlimit, hnext, hstep⟩⟩
  | cons block blocks ih =>
    obtain ⟨hne, hblocks⟩ := List.forall_mem_cons.mp hblocks
    obtain ⟨hnext, name, hstep⟩ := h
    obtain ⟨w₁, h₁, hputs⟩ := writeBlock_ok ⟨hlimit, hnext, hstep⟩ type hne
    have hat : w₁.At i .stream := by
      simp only [At, hputs.order, true_and]
      exact ⟨name, hstep⟩
    obtain ⟨w₂, record, h₂, hputs'⟩ := ih hputs.out.limit hat hblocks
    exact ⟨w₂, _, bind_ok.mpr ⟨(), w₁, h₁, h₂⟩, hputs.trans hputs'⟩

end Writer

open Writer in
/-- Contents can be written from the step on that is next. -/
theorem Content.Fit.writes_ok {types : Nat → Ty} {i : Nat} {steps : List Step}
    {contents : List Content} (h : Fit types i steps contents) {w : Writer}
    (hlimit : w.out.sink.limit = none) (hnext : w.order.next = i)
    (hsteps : steps <+: w.order.protocol.steps.drop i) (sizes : Nat → Nat) :
    ∃ w' record, runCalls (writes sizes i contents) w = .ok () w' ∧
      Puts w w' (allBytes sizes i contents) record (i + contents.length) := by
  induction h generalizing w with
  | nil => exact ⟨w, fun _ => id, rfl, .refl hlimit, by rw [← hnext]; rfl, Option.map_id_apply.symm⟩
  | @scalar i name steps value contents _ ih =>
    obtain ⟨hstep, hrest⟩ := Part.drop_cons hsteps
    obtain ⟨w₁, h₁, hputs⟩ := writeStep_ok ⟨hlimit, hnext, hstep⟩ (types i) value
    obtain ⟨w₂, record, h₂, hputs'⟩ := ih hputs.out.limit (by rw [hputs.order])
      (by rw [hputs.order]; exact hrest)
    have hall := hputs.trans hputs'
    rw [Nat.add_right_comm] at hall
    exact ⟨w₂, _, bind_ok.mpr ⟨(), w₁, h₁, h₂⟩, hall⟩
  | @stream i name steps items contents _ ih =>
    obtain ⟨hstep, hrest⟩ := Part.drop_cons hsteps
    have hblocks : ∀ block ∈ chunks (sizes i) items, block ≠ [] := fun _ => chunks_ne_nil
    obtain ⟨w₁, record₁, h₁, hputs₁⟩ := writeAll_puts hlimit ⟨hnext, name, hstep⟩ (types i) hblocks
    have hcomes : w₁.ComesTo i name .stream := by
      refine ⟨hputs₁.out.limit, by rw [hputs₁.order], ?_⟩
      rw [hputs₁.order]
      exact hstep
    obtain ⟨w₂, h₂, hputs₂⟩ := endStream_ok hcomes
    obtain ⟨w₃, record₃, h₃, hputs₃⟩ := ih hputs₂.out.limit (by rw [hputs₂.order])
      (by rw [hputs₂.order, hputs₁.order]; exact hrest)
    have hall := (hputs₁.trans hputs₂).trans hputs₃
    rw [Nat.add_right_comm] at hall
    rw [← runCalls_items] at h₁
    exact ⟨w₃, _, runCalls_append.mpr ⟨w₁, h₁, bind_ok.mpr ⟨(), w₂, h₂, h₃⟩⟩, hall⟩

-- ---------------------------------------------------------------------------
-- Copying
-- ---------------------------------------------------------------------------

namespace Copier

end Copier

-- ---------------------------------------------------------------------------
-- Files
-- ---------------------------------------------------------------------------

namespace Writer

/-- A new writer, with an index or without one. -/
def openAs (indexed : Bool) (protocol : Protocol) (sink : Sink) (bufferSize : Nat) :
    Except (Error × Sink) Writer :=
  if indexed then openIndexed protocol sink bufferSize else Writer.open protocol sink bufferSize

section
variable {w : Writer} {indexed : Bool} {protocol : Protocol} {sink : Sink} {bufferSize : Nat}

theorem openAs_opened (hlimit : sink.limit = none)
    (hopen : openAs indexed protocol sink bufferSize = .ok w) :
    (indexed = false ∧ w.Opened protocol sink.bytes 0 none) ∨
      (indexed = true ∧ w.Opened protocol sink.bytes sink.bytes.length (some {})) := by
  cases indexed with
  | false =>
    obtain ⟨u, hu, hopened⟩ := open_ok protocol hlimit bufferSize
    have hsame : (.ok u : Except (Error × Sink) Writer) = .ok w := hu.symm.trans hopen
    cases hsame
    exact .inl ⟨rfl, hopened⟩
  | true =>
    have hpipe := pipe_of_openIndexed (w := w) hopen
    obtain ⟨u, hu, hopened⟩ := openIndexed_ok protocol hlimit hpipe bufferSize
    have hsame : (.ok u : Except (Error × Sink) Writer) = .ok w := hu.symm.trans hopen
    cases hsame
    exact .inr ⟨rfl, hopened⟩

/-- A new writer can be given any contents of the right types, and then be closed. -/
theorem Opened.writes {before : Bytes} {start : Nat} {index : Option StreamIndex}
    (h : w.Opened protocol before start index) {types : Nat → Ty} {contents : List Content}
    (hfit : Content.Fit types 0 protocol.steps contents) (sizes : Nat → Nat) :
    ∃ w' sink', runCalls (Content.writes sizes 0 contents) w = .ok () w' ∧
      w'.close = (.ok (), sink') ∧
      sink'.bytes = before ++ (Header.bytes protocol.schema ++ Content.allBytes sizes 0 contents) ++
        w'.sectionBytes ∧
      (index = none → w'.sectionBytes = []) := by
  obtain ⟨w', record, hw', hputs⟩ := hfit.writes_ok h.limit (by rw [h.order])
    (by rw [h.order]; exact List.prefix_refl _) sizes
  rw [Nat.zero_add, hfit.length_eq] at hputs
  obtain ⟨sink', hclose, hbytes⟩ := h.closes hputs
  refine ⟨w', sink', hw', hclose, hbytes, ?_⟩
  rintro rfl
  rw [sectionBytes, hputs.index, h.index]
  rfl

end

end Writer

/-- `file` is what a writer leaves on `sink` that has been given these parts, cut into whatever
calls, and has been closed. -/
def Part.Written (parts : List Part) (protocol : Protocol) (indexed : Bool) (sink file : Sink) :
    Prop :=
  ∃ calls bufferSize w₀ w, Script 0 parts calls ∧
    Writer.openAs indexed protocol sink bufferSize = .ok w₀ ∧
    Writer.runCalls calls w₀ = .ok () w ∧ w.close = (.ok (), file)

theorem Part.Written.bytes_eq {parts : List Part} {protocol : Protocol} {indexed : Bool}
    {sink file : Sink} (h : Part.Written parts protocol indexed sink file)
    (hlimit : sink.limit = none) (hfill : Part.Fill protocol.steps parts) :
    file.bytes = sink.bytes ++ fileBytes protocol parts ++
      if indexed then trailer sink.bytes protocol parts else [] := by
  obtain ⟨calls, bufferSize, w₀, w, hcalls, hopen, hrun, hclose⟩ := h
  rcases Writer.openAs_opened hlimit hopen with ⟨rfl, hopened⟩ | ⟨rfl, hopened⟩
  · obtain ⟨w', file', hrun', hclose', hbytes, -, hindex⟩ := hopened.runs hfill hcalls
    cases hrun.symm.trans hrun'
    cases hclose.symm.trans hclose'
    rw [hbytes, Writer.sectionBytes, hindex]
    rfl
  · obtain ⟨w', file', hrun', hclose', -, hbytes⟩ := hopened.runs_indexed hfill hcalls
    cases hrun.symm.trans hrun'
    cases hclose.symm.trans hclose'
    exact hbytes

namespace Copier

section
variable {protocol : Protocol} {types : Nat → Ty} {widths buffers : Nat → Nat}
  {parts : List Part} {sink : Sink} {indexed : Bool} {bufferSize : Nat} {w : Writer}

end

end Copier

-- ---------------------------------------------------------------------------
-- A hash map
-- ---------------------------------------------------------------------------

namespace Lookup

def protocol : Protocol where
  name := "Lookup"
  steps := [⟨"table", .scalar⟩]
  schema := "lookup"

/-- Hash maps that hand out their entries from the last key to the first. -/
def table : Ty := .hashMap ⟨List.reverse, List.reverse_perm⟩ (.int .u8) (.int .u8)

/-- A map of the same entries that was written from the first key to the last. -/
def datum : Datum table where
  value := .map [(.int 2, .int 9), (.int 1, .int 7)]
  written := .map [(.int 1, .int 7), (.int 2, .int 9)]
  lists := by
    have hentry : ∀ n : Int, IntKind.u8.Holds n → (Ty.int .u8).Lists (.int n) (.int n) :=
      fun n hn => ⟨n, hn, rfl, rfl⟩
    let entries : List (Value × Value) := [(.int 1, .int 7), (.int 2, .int 9)]
    refine ⟨entries, entries, entries, ⟨by decide, trivial⟩, by decide, .refl _, ?_, rfl, rfl⟩
    exact .cons ⟨hentry 1 (by decide), hentry 7 (by decide)⟩
      (.cons ⟨hentry 2 (by decide), hentry 9 (by decide)⟩ .nil)

end Lookup

end TypedStream
