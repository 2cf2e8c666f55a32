import TypedStream.Index.Basic
import TypedStream.Protocol
import TypedStream.Proofs.Ty.RoundTrip

/-!
# What a file holds

A file holds one part for each step of its protocol: a value, or the items of a stream in the
batches in which they were written. Here is what each part comes to: its bytes, what it delivers,
and what an index records of it.
-/

namespace TypedStream

theorem flatMap_split (f : α → List β) (values : List α) (count : Nat) :
    values.flatMap f = (values.take count).flatMap f ++ (values.drop count).flatMap f := by
  rw [← List.flatMap_append, List.take_append_drop]

/-- A value of a type, with the form in which it is put down. -/
structure Datum (type : Ty) where
  value : Value
  written : Value
  lists : type.Lists value written

/-- Items written together, few enough to be read as a run. -/
structure Batch (type : Ty) where
  data : List (Datum type)
  short : data.length < sizeLimit
  fits : type.RunFits data.length

inductive Part where
  | scalar (type : Ty) (datum : Datum type)
  | stream (type : Ty) (batches : List (Batch type))

namespace Datum

def bytes (datum : Datum type) : Bytes := type.codec.encode datum.written

/-- Where items lie that start at a position. -/
def starts : Nat → List (Datum type) → List Nat
  | _, [] => []
  | pos, datum :: data => pos :: starts (pos + datum.bytes.length) data

theorem length_starts (pos : Nat) (data : List (Datum type)) :
    (starts pos data).length = data.length := by
  induction data generalizing pos with
  | nil => rfl
  | cons datum data ih => rw [starts, List.length_cons, List.length_cons, ih]

theorem getElem?_starts {pos k : Nat} {data : List (Datum type)} (h : k < data.length) :
    (starts pos data)[k]? = some (pos + ((data.take k).flatMap bytes).length) := by
  induction data generalizing pos k with
  | nil => simp at h
  | cons datum data ih =>
    cases k with
    | zero => rfl
    | succ k =>
      rw [starts, List.getElem?_cons_succ, ih (Nat.lt_of_succ_lt_succ h), List.take_succ_cons,
        List.flatMap_cons, List.length_append, Nat.add_assoc]

end Datum

namespace Batch

def single (datum : Datum type) : Batch type where
  data := [datum]
  short := show 1 < sizeLimit by decide
  fits := Ty.runFits_one datum.lists

/-- The block of a batch; no items make no block. -/
def bytes (batch : Batch type) : Bytes :=
  match batch.data with
  | [] => []
  | data => varint data.length ++ data.flatMap Datum.bytes

theorem bytes_nil {batch : Batch type} (h : batch.data = []) : batch.bytes = [] := by
  rw [bytes, h]

theorem bytes_eq {batch : Batch type} (h : batch.data ≠ []) :
    batch.bytes = varint batch.data.length ++ batch.data.flatMap Datum.bytes := by
  unfold bytes
  split
  · next hd => exact absurd hd h
  · rfl

def record (name : String) (pos : Nat) (batch : Batch type) (index : StreamIndex) : StreamIndex :=
  match batch.data with
  | [] => index
  | data =>
    (index.markStep name pos).addBlock name (Datum.starts (pos + (varint data.length).length) data)

theorem record_nil {batch : Batch type} (h : batch.data = []) (name : String) (pos : Nat)
    (index : StreamIndex) : batch.record name pos index = index := by
  rw [record, h]

theorem record_eq {batch : Batch type} (h : batch.data ≠ []) (name : String) (pos : Nat)
    (index : StreamIndex) :
    batch.record name pos index =
      (index.markStep name pos).addBlock name
        (Datum.starts (pos + (varint batch.data.length).length) batch.data) := by
  unfold record
  split
  · next hd => exact absurd hd h
  · rfl

def items (batches : List (Batch type)) : List (Datum type) := batches.flatMap data

theorem items_cons (batch : Batch type) (batches : List (Batch type)) :
    items (batch :: batches) = batch.data ++ items batches := List.flatMap_cons

theorem items_nil {batch : Batch type} (h : batch.data = []) (batches : List (Batch type)) :
    items (batch :: batches) = items batches := by
  rw [items_cons, h, List.nil_append]

def streamBytes (batches : List (Batch type)) : Bytes := batches.flatMap bytes ++ varint 0

theorem streamBytes_cons (batch : Batch type) (batches : List (Batch type)) :
    streamBytes (batch :: batches) = batch.bytes ++ streamBytes batches := by
  rw [streamBytes, List.flatMap_cons, List.append_assoc]
  rfl

/-- What an index records of a stream, from its first batch to its end. -/
def recordStream (name : String) : Nat → List (Batch type) → StreamIndex → StreamIndex
  | pos, [], index => index.markStep name pos
  | pos, batch :: batches, index =>
    recordStream name (pos + batch.bytes.length) batches (batch.record name pos index)

end Batch

namespace Part

def kind : Part → StepKind
  | scalar .. => .scalar
  | stream .. => .stream

def bytes : Part → Bytes
  | scalar _ datum => datum.bytes
  | stream _ batches => Batch.streamBytes batches

def record (name : String) (pos : Nat) : Part → StreamIndex → StreamIndex
  | scalar .. => (·.markStep name pos)
  | stream _ batches => Batch.recordStream name pos batches

def allBytes (parts : List Part) : Bytes := parts.flatMap bytes

def recordAll : Nat → List Step → List Part → StreamIndex → StreamIndex
  | pos, step :: steps, part :: parts, index =>
    recordAll (pos + part.bytes.length) steps parts (part.record step.name pos index)
  | _, _, _, index => index

theorem allBytes_cons (part : Part) (parts : List Part) :
    allBytes (part :: parts) = part.bytes ++ allBytes parts := List.flatMap_cons

theorem allBytes_append (parts more : List Part) :
    allBytes (parts ++ more) = allBytes parts ++ allBytes more := List.flatMap_append

@[simp] theorem recordAll_nil (pos : Nat) (steps : List Step) (index : StreamIndex) :
    recordAll pos steps [] index = index := by
  cases steps <;> rfl

theorem allBytes_stream (batch : Batch type) (batches : List (Batch type)) (parts : List Part) :
    allBytes (stream type (batch :: batches) :: parts) =
      batch.bytes ++ allBytes (stream type batches :: parts) := by
  simp only [allBytes, List.flatMap_cons, bytes, Batch.streamBytes_cons, List.append_assoc]

theorem recordAll_stream (step : Step) (steps : List Step) (batch : Batch type)
    (batches : List (Batch type)) (parts : List Part) :
    (fun pos => recordAll pos (step :: steps) (stream type (batch :: batches) :: parts)) =
      fun pos index => recordAll (pos + batch.bytes.length) (step :: steps)
        (stream type batches :: parts) (batch.record step.name pos index) := by
  funext pos index
  simp only [recordAll, bytes, Batch.streamBytes_cons, List.length_append, Nat.add_assoc]
  rfl

/-- The parts are of the kinds that the steps ask for. -/
def Fill (steps : List Step) (parts : List Part) : Prop :=
  parts.map kind = steps.map Step.kind

theorem Fill.cons {steps : List Step} {part : Part} {parts : List Part}
    (h : Fill steps (part :: parts)) :
    ∃ name rest, steps = ⟨name, part.kind⟩ :: rest ∧ Fill rest parts := by
  cases steps with
  | nil => simp [Fill] at h
  | cons step rest =>
    simp only [Fill, List.map_cons, List.cons.injEq] at h
    exact ⟨step.name, rest, by rw [h.1], h.2⟩

theorem Fill.length_eq {steps : List Step} {parts : List Part} (h : Fill steps parts) :
    parts.length = steps.length := by
  simpa using congrArg List.length h

theorem drop_cons {steps rest : List Step} {step : Step} {i : Nat}
    (h : step :: rest <+: steps.drop i) : steps[i]? = some step ∧ rest <+: steps.drop (i + 1) := by
  obtain ⟨more, hmore⟩ := h
  refine ⟨?_, more, ?_⟩
  · rw [← Nat.add_zero i, ← List.getElem?_drop, ← hmore]
    rfl
  · rw [← List.drop_drop, ← hmore]
    rfl

theorem drop_append {steps front back : List Step} {i : Nat}
    (h : front ++ back <+: steps.drop i) : back <+: steps.drop (i + front.length) := by
  obtain ⟨more, hmore⟩ := h
  refine ⟨more, ?_⟩
  rw [← List.drop_drop, ← hmore, List.append_assoc, List.drop_left]

theorem Fill.append {steps : List Step} {before after : List Part}
    (h : Fill steps (before ++ after)) :
    ∃ front back, steps = front ++ back ∧ Fill front before ∧ Fill back after := by
  rw [Fill, List.map_append] at h
  obtain ⟨front, back, hsteps, hfront, hback⟩ := List.map_eq_append_iff.mp h.symm
  exact ⟨front, back, hsteps, hfront.symm, hback.symm⟩

end Part

end TypedStream
