import TypedStream.Proofs.Order.Programs

/-!
# The reported end of a stream

A read of a stream that finds no items left reports the end. If it asks for one item, or if the
end was known before, the step is then finished: it cannot be read again, and after the last step
the reader can be closed. A batch read that finds the end itself leaves the step unfinished, as if
it had delivered items: the end is reported once more before the reader can be closed
(`Reader.end_reported`).
-/

namespace TypedStream

namespace Reader

variable {r r' : Reader InputStream} {protocol : Protocol} {i : Nat} {name : String}

/-- A known end is reported without a look at the input. -/
theorem answer_drained (hstep : protocol.step? i = some ⟨name, .stream⟩)
    (ho : r.order = ⟨protocol, .drained i⟩) {call : ReadCall} (htarget : call.target = i)
    (hkind : call.kind = .stream) (hroomy : call.Roomy) :
    ∃ found, answer call r = .ok found { r with order := ⟨protocol, .at (i + 1)⟩ } ∧
      found.ReportsEnd ∧ found.delivered = [] := by
  have hallowed := authorize_run (congrArg _ ho) hstep
  have hbegin := beginStream_drained ho
  subst htarget
  cases call with
  | step => cases hkind
  | item type decoder i =>
    refine ⟨.item none, map_ok ?_, rfl, rfl⟩
    exact bind_ok.mpr ⟨(), r, hallowed, bind_ok.mpr ⟨.finished, _, hbegin, rfl⟩⟩
  | items type decoder i max seed =>
    refine ⟨.items false [], ?_, rfl, rfl⟩
    have hmax : max ≠ 0 := Nat.one_le_iff_ne_zero.mp hroomy
    simp only [ReadCall.target] at hallowed hbegin
    simp only [answer, readItems, if_neg hmax, hallowed, hbegin, ReadCall.target]

theorem require_error {check : Reader InputStream → Except Error Unit} {error : Error}
    (h : check r = .error error) : require check r = .error error r := by simp only [require, h]

theorem close_drained (ho : r.order = ⟨protocol, .drained i⟩) :
    ∃ refusal, close r = .error (.protocol refusal) r := by
  have hrefused : ∃ refusal, r.order.checkClose = .error (.protocol refusal) := by
    simp [ReadOrder.checkClose, ReadOrder.complete, ReadOrder.refuse, ho]
  obtain ⟨refusal, hrefused⟩ := hrefused
  exact ⟨refusal, bind_error.mpr (.inl (require_error hrefused))⟩

theorem close_complete (ho : r.order = ⟨protocol, .at protocol.stepCount⟩) {s : InputStream}
    (hend : ByteInput.atEnd r.input = .ok true s) : close r = .ok () { r with input := s } := by
  refine bind_ok.mpr ⟨(), r, ?_, onInput_run (bind_ok.mpr ⟨true, s, hend, rfl⟩)⟩
  simp [require, ReadOrder.checkClose, ReadOrder.complete, ho]

theorem ended_of_answer (hr : r.InOrder protocol) {call : ReadCall} {found : Answer}
    (h : answer call r = .ok found r') (hend : found.ReportsEnd) :
    (call.FindsEnd r.cursor ∧ r'.Ended protocol (.drained call.target)) ∨
    (¬ call.FindsEnd r.cursor ∧ r'.Ended protocol (.at (call.target + 1))) := by
  have hcomes := Intake.comesTo_answer r call
  rw [h] at hcomes
  exact Intake.comesTo_ended hr hcomes hend

end Reader

namespace NoTicks

/-- A stream of items without bytes. -/
def protocol : Protocol where
  name := "NoTicks"
  steps := [⟨"ticks", .stream⟩]
  schema := "no ticks"

/-- A file of no ticks. -/
def input : InputStream := .open (.ofBytes (fileBytes protocol [.stream .unit []])) 0 0

def batchRead : ReadCall := .items .unit .current 0 1 []

theorem batchRead_run : ∃ r₀ r₁, Reader.open protocol input = .ok r₀ ∧ r₀.cursor = 0 ∧
    Reader.answer batchRead r₀ = .ok (.items false []) r₁ := by
  have hreliable : (Source.ofBytes (fileBytes protocol [.stream .unit []])).Reliable :=
    ⟨rfl, by simp [Source.ofBytes]⟩
  obtain ⟨r₀, hopen, hbefore⟩ :=
    Reader.open_run (by decide) (InputStream.ahead_open hreliable 0 0)
  obtain ⟨place, ho, hfaces⟩ := hbefore.order
  replace hbefore : r₀.Before protocol 0 _ (Batch.streamBytes ([] : List (Batch .unit)) ++ []) :=
    hbefore
  obtain ⟨r₁, hread, -⟩ := Reader.answer_end rfl hbefore.streaming_bytes
    (Datum.reads_current .unit) (.items 1 (by decide) [])
  have hle : r₀.cursor ≤ 0 := Reader.cursor_eq ho ▸ ReadPlace.code_le_of_faces hfaces
  exact ⟨r₀, r₁, hopen, Nat.le_zero.mp hle, hread⟩

end NoTicks

namespace Reader

/-- A reported end finishes the step, unless a batch read has found it: the step then ends once
more, without a look at the input, and until then the reader cannot be closed. -/
theorem end_reported {input : InputStream} {r₀ : Reader InputStream}
    (hopen : Reader.open protocol input = .ok r₀) (calls : List ReadCall) {call : ReadCall}
    {found : Answer} (hcall : answer call (after calls r₀) = .ok found r')
    (hend : found.ReportsEnd) :
    r'.remaining = 0 ∧
    (¬ call.FindsEnd (after calls r₀).cursor →
      r'.cursor = 2 * call.target + 2 ∧
      (∀ again : ReadCall, again.target = call.target →
        ∃ error, again.Refusal error ∧ r'.Refuses again error) ∧
      (call.target + 1 = protocol.stepCount → ∀ s, ByteInput.atEnd r'.input = .ok true s →
        close r' = .ok () { r' with input := s })) ∧
    (call.FindsEnd (after calls r₀).cursor →
      r'.cursor = 2 * call.target + 1 ∧
      (∀ again : ReadCall, again.target = call.target → again.kind = .stream → again.Roomy →
        ∃ found, answer again r' =
            .ok found { r' with order := ⟨protocol, .at (call.target + 1)⟩ } ∧
          found.ReportsEnd ∧ found.delivered = []) ∧
      ∃ refusal, close r' = .error (.protocol refusal) r') := by
  have hr : (after calls r₀).InOrder protocol := (after_leads (open_inOrder hopen) calls).inOrder
  have hleads := answer_leads hr call
  simp only [reply, hcall] at hleads
  rcases ended_of_answer hr hcall hend with ⟨hfinds, ho, hrem⟩ | ⟨hfinds, ho, hrem⟩
  · refine ⟨hrem, fun hnot => absurd hfinds hnot, fun _ => ⟨cursor_eq ho, ?_, close_drained ho⟩⟩
    obtain ⟨⟨name, hstep⟩, -⟩ := hleads.inOrder.of_odd (cursor_eq ho)
    exact fun again htarget hkind hroomy => answer_drained hstep ho htarget hkind hroomy
  · have hcursor : r'.cursor = 2 * call.target + 2 := cursor_eq ho
    refine ⟨hrem, fun _ => ⟨hcursor, ?_, ?_⟩, fun hnot => absurd hnot hfinds⟩
    · intro again htarget
      refine answer_refused hleads.inOrder ?_
      rintro ⟨-, -, hplace⟩
      rw [htarget, hcursor] at hplace
      omega
    · intro hlast s hs
      rw [hlast] at ho
      exact close_complete ho hs

/-- A batch read finds that there are no ticks; a single read after it says so again. -/
theorem end_reported_noTicks :
    ∃ r₀ r₁ r₂, Reader.open NoTicks.protocol NoTicks.input = .ok r₀ ∧
      answer NoTicks.batchRead r₀ = .ok (.items false []) r₁ ∧ r₁.cursor = 1 ∧
      (∃ refusal, close r₁ = .error (.protocol refusal) r₁) ∧
      answer (.item .unit .current 0) r₁ = .ok (.item none) r₂ ∧ r₂.cursor = 2 := by
  obtain ⟨r₀, r₁, hopen, hcursor, hbatch⟩ := NoTicks.batchRead_run
  have hfinds : NoTicks.batchRead.FindsEnd (after [] r₀).cursor := by
    show r₀.cursor ≠ 1
    simp [hcursor]
  obtain ⟨-, -, hunfinished⟩ := end_reported hopen [] hbatch rfl
  obtain ⟨hcursor₁, hagain, hclose⟩ := hunfinished hfinds
  obtain ⟨found, hitem, hend, -⟩ := hagain (.item .unit .current 0) rfl rfl trivial
  obtain ⟨item, hread, rfl⟩ := map_inv hitem
  obtain rfl : item = none := hend
  exact ⟨r₀, r₁, _, hopen, hbatch, hcursor₁, hclose, hitem, rfl⟩

/-- A reported end need not finish the step. -/
theorem end_unfinished :
    ¬ ∀ (protocol : Protocol) (input : InputStream) (r₀ r' : Reader InputStream)
      (calls : List ReadCall) (call : ReadCall) (found : Answer),
      Reader.open protocol input = .ok r₀ → answer call (after calls r₀) = .ok found r' →
      found.ReportsEnd → r'.cursor = 2 * call.target + 2 := by
  intro hfinished
  obtain ⟨r₀, r₁, hopen, hcursor, hbatch⟩ := NoTicks.batchRead_run
  have hcursor₁ := hfinished _ _ r₀ r₁ [] _ _ hopen hbatch rfl
  rcases ended_of_answer (open_inOrder hopen) hbatch rfl with ⟨-, hended⟩ | ⟨hfinds, -⟩
  · rw [cursor_eq hended.order] at hcursor₁
    cases hcursor₁
  · apply hfinds
    show r₀.cursor ≠ 1
    simp [hcursor]

end Reader

end TypedStream
