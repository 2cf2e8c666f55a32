import TypedStream.Proofs.Index.Section
import TypedStream.Proofs.Order.Writing

/-!
# An index is kept beside the payload

A writer with an index and one without, given the same calls, accept and refuse the same ones with
the same errors, and what they have written behind their sinks' old content is the same at any
time (`Writer.indexed_payload`). They differ in nothing until they are closed: then the section of
the index follows.

The two put a batch down in different ways, one by one and as a run. That this does not show rests
on the codecs: the encoding of a run is the encodings of its items (`Codec.Carries.runWrites`).
-/

namespace TypedStream.Writer

/-- The results of calls that are made whatever became of those before, and the writer then. -/
def outcomes : List WriteCall → Writer → List (Except Error Unit) × Writer
  | [], w => ([], w)
  | call :: calls, w =>
    match runCall call w with
    | .ok () w' => (.ok () :: (outcomes calls w').1, (outcomes calls w').2)
    | .error error w' => (.error error :: (outcomes calls w').1, (outcomes calls w').2)

/-- `w` keeps an index and `p` does not. Otherwise they have done the same: both have written
`payload`, behind what each found in its sink. -/
structure Twins (w p : Writer) (protocol : Protocol) (before plainBefore payload : Bytes) :
    Prop where
  order : w.order = p.order
  protocol_eq : w.order.protocol = protocol
  limit : w.out.sink.limit = none
  plain_limit : p.out.sink.limit = none
  indexed : ∃ index, w.index = some index
  unindexed : p.index = none
  pos : w.pos = before.length + payload.length
  written : w.out.written = before ++ payload
  plain_written : p.out.written = plainBefore ++ payload

section
variable {w w' p p' : Writer} {protocol : Protocol} {before plainBefore payload : Bytes}

theorem Twins.puts (h : w.Twins p protocol before plainBefore payload) {data : Bytes}
    {record record' : Nat → StreamIndex → StreamIndex} {next : Nat}
    (hputs : Puts w w' data record next) (hputs' : Puts p p' data record' next) :
    w'.Twins p' protocol before plainBefore (payload ++ data) where
  order := by rw [hputs.order, hputs'.order, h.order]
  protocol_eq := by
    rw [hputs.order]
    exact h.protocol_eq
  limit := hputs.out.limit
  plain_limit := hputs'.out.limit
  indexed := by
    obtain ⟨index, hindex⟩ := h.indexed
    exact ⟨_, by rw [hputs.index, hindex]; rfl⟩
  unindexed := by
    rw [hputs'.index, h.unindexed]
    rfl
  pos := by
    have hpos : w'.pos = w.pos + data.length := hputs.out.pos
    rw [hpos, h.pos, List.length_append, Nat.add_assoc]
  written := by rw [hputs.out.written, h.written, List.append_assoc]
  plain_written := by rw [hputs'.out.written, h.plain_written, List.append_assoc]

/-- A call is accepted by both and puts down the same bytes, or refused by both for the same
reason. -/
theorem Twins.call (h : w.Twins p protocol before plainBefore payload) (call : WriteCall) :
    (∃ w' p' data, runCall call w = .ok () w' ∧ runCall call p = .ok () p' ∧
      w'.Twins p' protocol before plainBefore (payload ++ data)) ∨
    ∃ error, runCall call w = .error error w ∧ runCall call p = .error error p := by
  by_cases hallowed : call.Allowed w.order.protocol.steps w.order.next
  · obtain ⟨w', hrun, hputs⟩ := runCall_puts h.limit hallowed
    rw [h.order] at hallowed hputs
    obtain ⟨p', hrun', hputs'⟩ := runCall_puts h.plain_limit hallowed
    exact .inl ⟨w', p', call.bytes, hrun, hrun', h.puts hputs hputs'⟩
  · obtain ⟨refusal, hrefused⟩ := runCall_refused hallowed
    exact .inr ⟨.protocol refusal, hrefused w rfl, hrefused p h.order.symm⟩

theorem Twins.outcomes_eq (h : w.Twins p protocol before plainBefore payload)
    (calls : List WriteCall) :
    (outcomes calls w).1 = (outcomes calls p).1 ∧
      ∃ data, (outcomes calls w).2.Twins (outcomes calls p).2 protocol before
        plainBefore (payload ++ data) := by
  induction calls generalizing w p payload with
  | nil => exact ⟨rfl, [], by rwa [List.append_nil]⟩
  | cons call calls ih =>
    rcases h.call call with ⟨w', p', data, hrun, hrun', htwins⟩ | ⟨error, hrun, hrun'⟩
    · obtain ⟨hsame, more, hmore⟩ := ih htwins
      rw [List.append_assoc] at hmore
      simp only [outcomes, hrun, hrun', hsame, true_and]
      exact ⟨_, hmore⟩
    · obtain ⟨hsame, more, hmore⟩ := ih h
      simp only [outcomes, hrun, hrun', hsame, true_and]
      exact ⟨more, hmore⟩

-- ---------------------------------------------------------------------------
-- The end
-- ---------------------------------------------------------------------------

theorem Twins.closes (h : w.Twins p protocol before plainBefore payload) {index : StreamIndex}
    (hindex : w.index = some index) (hnext : w.order.next = protocol.stepCount) :
    ∃ sink plainSink, w.close = (.ok (), sink) ∧ p.close = (.ok (), plainSink) ∧
      sink.bytes = before ++ payload ++ (index.bytes ++
        littleEndian StreamIndex.pointerBytes (before ++ payload).length) ∧
      plainSink.bytes = plainBefore ++ payload := by
  rw [← h.protocol_eq] at hnext
  obtain ⟨sink, hclose, hbytes⟩ := close_ok h.limit hnext
  rw [h.order] at hnext
  obtain ⟨plainSink, hclose', hbytes'⟩ := close_ok h.plain_limit hnext
  refine ⟨sink, plainSink, hclose, hclose', ?_, ?_⟩
  · rw [hbytes, sectionBytes, hindex, h.written, h.pos, ← List.length_append]
    exact congrArg _ (StreamIndex.flatten_writes index _)
  · rw [hbytes', sectionBytes, h.unindexed, h.plain_written]
    exact List.append_nil _

end

end TypedStream.Writer
