import TypedStream.Proofs.Assoc
import TypedStream.Proofs.Script

/-!
# What an index says after the parts of a file

An index is changed under one name at a time. If no two steps have one name, the index of a file
says of each step what recording its part alone would have made it say
(`Part.recordAll_tells`): where the step starts, where its items lie, and which items start a
block. Its tables are maps, and no number in them is larger than the file
(`StreamIndex.Regular`).
-/

namespace TypedStream

namespace StreamIndex

/-- What an index says of a name. -/
structure Tells (index : StreamIndex) (name : String) (start : Option Nat)
    (items blocks : List Nat) : Prop where
  start_eq : Assoc.find? name index.steps = start
  items_eq : index.itemsOf name = items
  blocks_eq : index.blocksOf name = blocks

theorem tells_empty (name : String) : Tells {} name none [] [] := ⟨rfl, rfl, rfl⟩

section
variable {index : StreamIndex} {name other : String} {start : Option Nat} {items blocks : List Nat}

theorem Tells.markStep (h : index.Tells name start items blocks) (offset : Nat) :
    (index.markStep name offset).Tells name (some (start.getD offset)) items blocks := by
  refine ⟨?_, h.items_eq, h.blocks_eq⟩
  rw [← h.start_eq]
  exact Assoc.find?_alter_self name (·.getD offset) index.steps

theorem Tells.markStep_ne (h : index.Tells name start items blocks) (hne : name ≠ other)
    (offset : Nat) : (index.markStep other offset).Tells name start items blocks := by
  refine ⟨?_, h.items_eq, h.blocks_eq⟩
  rw [← h.start_eq]
  exact Assoc.find?_alter_ne hne (·.getD offset) index.steps

theorem itemsOf_addBlock (index : StreamIndex) (name : String) (offsets : List Nat) :
    (index.addBlock name offsets).itemsOf name = index.itemsOf name ++ offsets := by
  simp only [itemsOf, addBlock, Assoc.find?_alter_self, Option.getD_some]

theorem itemsOf_addBlock_ne (index : StreamIndex) (hne : name ≠ other) (offsets : List Nat) :
    (index.addBlock other offsets).itemsOf name = index.itemsOf name := by
  simp only [itemsOf, addBlock, Assoc.find?_alter_ne hne]

theorem Tells.addBlock (h : index.Tells name start items blocks) (offsets : List Nat) :
    (index.addBlock name offsets).Tells name start (items ++ offsets)
      (blocks ++ [items.length]) := by
  refine ⟨h.start_eq, ?_, ?_⟩
  · rw [itemsOf_addBlock, h.items_eq]
  · rw [← h.blocks_eq, ← h.items_eq]
    simp only [blocksOf, StreamIndex.addBlock, Assoc.find?_alter_self, Option.getD_some]

theorem Tells.addBlock_ne (h : index.Tells name start items blocks) (hne : name ≠ other)
    (offsets : List Nat) : (index.addBlock other offsets).Tells name start items blocks := by
  refine ⟨h.start_eq, ?_, ?_⟩
  · rw [itemsOf_addBlock_ne index hne, h.items_eq]
  · rw [← h.blocks_eq]
    simp only [blocksOf, StreamIndex.addBlock, Assoc.find?_alter_ne hne]

-- ---------------------------------------------------------------------------
-- Tables
-- ---------------------------------------------------------------------------

/-- The tables are maps, offsets are at most `limit`, and blocks start among the items or behind
them. -/
structure Regular (index : StreamIndex) (limit : Nat) : Prop where
  steps_ascend : Assoc.Ascending index.steps
  items_ascend : Assoc.Ascending index.items
  blocks_ascend : Assoc.Ascending index.blocks
  steps_le : ∀ e ∈ index.steps, e.2 ≤ limit
  items_le : ∀ e ∈ index.items, ∀ offset ∈ e.2, offset ≤ limit
  blocks_le : ∀ e ∈ index.blocks, ∀ first ∈ e.2, first ≤ (index.itemsOf e.1).length

theorem regular_empty (limit : Nat) : Regular {} limit where
  steps_ascend := trivial
  items_ascend := trivial
  blocks_ascend := trivial
  steps_le := by simp
  items_le := by simp
  blocks_le := by simp

variable {limit : Nat}

theorem Regular.markStep (h : index.Regular limit) (name : String) {offset : Nat}
    (ho : offset ≤ limit) : (index.markStep name offset).Regular limit where
  steps_ascend := Assoc.ascending_alter h.steps_ascend _ _
  items_ascend := h.items_ascend
  blocks_ascend := h.blocks_ascend
  steps_le := by
    intro e he
    rcases Assoc.mem_alter he with rfl | he
    · cases hfound : Assoc.find? name index.steps with
      | none => exact ho
      | some value => exact h.steps_le _ (Assoc.mem_of_find? hfound)
    · exact h.steps_le e he
  items_le := h.items_le
  blocks_le := h.blocks_le

theorem Regular.itemsOf_le (h : index.Regular limit) (name : String) :
    ∀ offset ∈ index.itemsOf name, offset ≤ limit := by
  unfold itemsOf
  cases hfound : Assoc.find? name index.items with
  | none => simp
  | some value => exact h.items_le _ (Assoc.mem_of_find? hfound)

theorem Regular.blocksOf_le (h : index.Regular limit) (name : String) :
    ∀ first ∈ index.blocksOf name, first ≤ (index.itemsOf name).length := by
  unfold blocksOf
  cases hfound : Assoc.find? name index.blocks with
  | none => simp
  | some value => exact h.blocks_le _ (Assoc.mem_of_find? hfound)

theorem length_itemsOf_addBlock (index : StreamIndex) (name other : String)
    (offsets : List Nat) :
    (index.itemsOf name).length ≤ ((index.addBlock other offsets).itemsOf name).length := by
  by_cases hne : name = other
  · rw [hne, itemsOf_addBlock, List.length_append]
    exact Nat.le_add_right _ _
  · exact Nat.le_of_eq (congrArg List.length (itemsOf_addBlock_ne index hne offsets)).symm

theorem Regular.addBlock (h : index.Regular limit) (name : String) {offsets : List Nat}
    (ho : ∀ offset ∈ offsets, offset ≤ limit) : (index.addBlock name offsets).Regular limit where
  steps_ascend := h.steps_ascend
  items_ascend := Assoc.ascending_alter h.items_ascend _ _
  blocks_ascend := Assoc.ascending_alter h.blocks_ascend _ _
  steps_le := h.steps_le
  items_le := by
    intro e he
    rcases Assoc.mem_alter he with rfl | he
    · intro offset hoffset
      rcases List.mem_append.mp hoffset with hoffset | hoffset
      · exact h.itemsOf_le name offset hoffset
      · exact ho offset hoffset
    · exact h.items_le e he
  blocks_le := by
    intro e he first hfirst
    refine Nat.le_trans ?_ (length_itemsOf_addBlock index e.1 name offsets)
    rcases Assoc.mem_alter he with rfl | he
    · rcases List.mem_append.mp hfirst with hfirst | hfirst
      · exact h.blocksOf_le name first hfirst
      · exact Nat.le_of_eq (List.mem_singleton.mp hfirst)
    · exact h.blocks_le e he first hfirst

end

end StreamIndex

-- ---------------------------------------------------------------------------
-- Streams
-- ---------------------------------------------------------------------------

theorem Datum.starts_le {pos : Nat} {data : List (Datum type)} {offset : Nat}
    (h : offset ∈ starts pos data) : offset ≤ pos + (data.flatMap bytes).length := by
  induction data generalizing pos with
  | nil => cases h
  | cons datum data ih =>
    rw [List.flatMap_cons, List.length_append, ← Nat.add_assoc]
    rcases List.mem_cons.mp h with rfl | h
    · omega
    · exact ih h

namespace Batch

/-- Where the items of batches lie that start at a position. -/
def offsets : Nat → List (Batch type) → List Nat
  | _, [] => []
  | pos, batch :: batches =>
    Datum.starts (pos + (varint batch.data.length).length) batch.data
      ++ offsets (pos + batch.bytes.length) batches

/-- The first items of the blocks of batches that are written after `count` items. -/
def firsts : Nat → List (Batch type) → List Nat
  | _, [] => []
  | count, batch :: batches =>
    match batch.data with
    | [] => firsts count batches
    | data => count :: firsts (count + data.length) batches

theorem offsets_nil {batch : Batch type} (h : batch.data = []) (pos : Nat)
    (batches : List (Batch type)) : offsets pos (batch :: batches) = offsets pos batches := by
  rw [offsets, h, bytes_nil h]
  rfl

theorem firsts_nil {batch : Batch type} (h : batch.data = []) (count : Nat)
    (batches : List (Batch type)) : firsts count (batch :: batches) = firsts count batches := by
  rw [firsts, h]

theorem firsts_cons {batch : Batch type} (h : batch.data ≠ []) (count : Nat)
    (batches : List (Batch type)) :
    firsts count (batch :: batches) = count :: firsts (count + batch.data.length) batches := by
  rw [firsts]
  split
  · next hd => exact absurd hd h
  · rfl

theorem length_offsets (pos : Nat) (batches : List (Batch type)) :
    (offsets pos batches).length = (items batches).length := by
  induction batches generalizing pos with
  | nil => rfl
  | cons batch batches ih =>
    rw [offsets, List.length_append, Datum.length_starts, ih, items_cons, List.length_append]

section
variable {index : StreamIndex} {name other : String} {start : Option Nat}
  {itemOffsets blockFirsts : List Nat}

theorem tells_recordStream (h : index.Tells name start itemOffsets blockFirsts) (pos : Nat)
    (batches : List (Batch type)) :
    (recordStream name pos batches index).Tells name (some (start.getD pos))
      (itemOffsets ++ offsets pos batches) (blockFirsts ++ firsts itemOffsets.length batches) := by
  induction batches generalizing index pos start itemOffsets blockFirsts with
  | nil =>
    simp only [recordStream, offsets, firsts, List.append_nil]
    exact h.markStep pos
  | cons batch batches ih =>
    by_cases hdata : batch.data = []
    · have hrest := ih h pos
      rwa [recordStream, record_nil hdata, bytes_nil hdata, List.length_nil, Nat.add_zero,
        offsets_nil hdata, firsts_nil hdata]
    · have hrest := ih ((h.markStep pos).addBlock
        (Datum.starts (pos + (varint batch.data.length).length) batch.data))
        (pos + batch.bytes.length)
      rw [Option.getD_some, List.append_assoc, List.append_assoc, List.length_append,
        Datum.length_starts] at hrest
      rw [recordStream, record_eq hdata, firsts_cons hdata]
      exact hrest

theorem tells_recordStream_ne (h : index.Tells name start itemOffsets blockFirsts)
    (hne : name ≠ other) (pos : Nat) (batches : List (Batch type)) :
    (recordStream other pos batches index).Tells name start itemOffsets blockFirsts := by
  induction batches generalizing index pos with
  | nil => exact h.markStep_ne hne pos
  | cons batch batches ih =>
    by_cases hdata : batch.data = []
    · rw [recordStream, record_nil hdata]
      exact ih h _
    · rw [recordStream, record_eq hdata]
      exact ih ((h.markStep_ne hne _).addBlock_ne hne _) _

theorem regular_recordStream {limit : Nat} (h : index.Regular limit) (name : String) {pos : Nat}
    {batches : List (Batch type)} (hlimit : pos + (streamBytes batches).length ≤ limit) :
    (recordStream name pos batches index).Regular limit := by
  induction batches generalizing index pos with
  | nil => exact h.markStep name (by omega)
  | cons batch batches ih =>
    rw [streamBytes_cons, List.length_append, ← Nat.add_assoc] at hlimit
    rw [recordStream]
    refine ih ?_ hlimit
    by_cases hdata : batch.data = []
    · rwa [record_nil hdata]
    · rw [record_eq hdata]
      rw [bytes_eq hdata, List.length_append] at hlimit
      refine (h.markStep name (by omega)).addBlock name fun offset hoffset => ?_
      have := Datum.starts_le hoffset
      omega

end

end Batch

-- ---------------------------------------------------------------------------
-- Files
-- ---------------------------------------------------------------------------

namespace Part

def offsets (pos : Nat) : Part → List Nat
  | scalar .. => []
  | stream _ batches => Batch.offsets pos batches

def firsts : Part → List Nat
  | scalar .. => []
  | stream _ batches => Batch.firsts 0 batches

section
variable {index : StreamIndex} {name other : String} {start : Option Nat} {items blocks : List Nat}

theorem tells_record (h : index.Tells name none [] []) (pos : Nat) (part : Part) :
    (part.record name pos index).Tells name (some pos) (part.offsets pos) part.firsts := by
  cases part with
  | scalar => exact h.markStep pos
  | stream => exact Batch.tells_recordStream h pos _

theorem tells_record_ne (h : index.Tells name start items blocks) (hne : name ≠ other) (pos : Nat)
    (part : Part) : (part.record other pos index).Tells name start items blocks := by
  cases part with
  | scalar => exact h.markStep_ne hne pos
  | stream => exact Batch.tells_recordStream_ne h hne pos _

theorem tells_recordAll_ne (h : index.Tells name start items blocks) {steps : List Step}
    (hname : name ∉ steps.map Step.name) (pos : Nat) (parts : List Part) :
    (recordAll pos steps parts index).Tells name start items blocks := by
  induction parts generalizing index pos steps with
  | nil => rwa [recordAll_nil]
  | cons part parts ih =>
    cases steps with
    | nil => exact h
    | cons step steps =>
      rw [List.map_cons, List.mem_cons, not_or] at hname
      exact ih (tells_record_ne h hname.1 pos part) hname.2 _

/-- The index of a file says of each step what its part alone makes it say. -/
theorem recordAll_tells {steps : List Step} {parts : List Part}
    (hnames : (steps.map Step.name).Nodup) (h : ∀ step ∈ steps, index.Tells step.name none [] [])
    {i : Nat} {step : Step} {part : Part} (hstep : steps[i]? = some step)
    (hpart : parts[i]? = some part) (pos : Nat) :
    (recordAll pos steps parts index).Tells step.name
      (some (pos + (allBytes (parts.take i)).length))
      (part.offsets (pos + (allBytes (parts.take i)).length)) part.firsts := by
  induction parts generalizing index pos steps i with
  | nil => cases hpart
  | cons first parts ih =>
    cases steps with
    | nil => cases hstep
    | cons head steps =>
      obtain ⟨hhead, hrest⟩ := List.nodup_cons.mp hnames
      cases i with
      | zero =>
        obtain rfl := Option.some.inj hstep
        obtain rfl := Option.some.inj hpart
        exact tells_recordAll_ne (tells_record (h _ List.mem_cons_self) pos _) hhead _ _
      | succ i =>
        rw [List.take_succ_cons, allBytes_cons, List.length_append, ← Nat.add_assoc]
        refine ih hrest (fun other hother => ?_) hstep hpart _
        refine tells_record_ne (h other (List.mem_cons_of_mem _ hother)) (fun heq => hhead ?_) _ _
        rw [← heq]
        exact List.mem_map_of_mem hother

theorem regular_record {limit : Nat} (h : index.Regular limit) (name : String) {pos : Nat}
    {part : Part} (hlimit : pos + part.bytes.length ≤ limit) :
    (part.record name pos index).Regular limit := by
  cases part with
  | scalar => exact h.markStep name (by omega)
  | stream => exact Batch.regular_recordStream h name hlimit

theorem regular_recordAll {limit : Nat} (h : index.Regular limit) (steps : List Step) {pos : Nat}
    {parts : List Part} (hlimit : pos + (allBytes parts).length ≤ limit) :
    (recordAll pos steps parts index).Regular limit := by
  induction parts generalizing index pos steps with
  | nil => rwa [recordAll_nil]
  | cons part parts ih =>
    cases steps with
    | nil => exact h
    | cons step steps =>
      rw [allBytes_cons, List.length_append, ← Nat.add_assoc] at hlimit
      exact ih (regular_record h step.name (by omega)) steps hlimit

end

end Part

end TypedStream
