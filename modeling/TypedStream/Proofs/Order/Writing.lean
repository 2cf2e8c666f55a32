import TypedStream.Proofs.Accepted
import TypedStream.Proofs.Order.Calls
import TypedStream.Proofs.RoundTrip

/-!
# The order in which a writer is written

The calls that a writer accepts, one by one, are those that begin a complete run over the steps of
its protocol: a value for each scalar, and for each stream items in any batches and then its end
(`Writer.write_order`). All other calls are refused and leave no trace. What the sink holds in the
end, closed or not, is the header and what the accepted calls encode.
-/

namespace TypedStream

-- ---------------------------------------------------------------------------
-- Complete runs
-- ---------------------------------------------------------------------------

/-- Calls that write the steps, of which the first is step `i`, each to its end. -/
inductive Fills : Nat → List Step → List WriteCall → Prop
  | nil {i} : Fills i [] []
  | scalar {i name steps type value calls} : Fills (i + 1) steps calls →
      Fills i (⟨name, .scalar⟩ :: steps) (.step type i value :: calls)
  | item {i name steps type value calls} : Fills i (⟨name, .stream⟩ :: steps) calls →
      Fills i (⟨name, .stream⟩ :: steps) (.item type i value :: calls)
  | items {i name steps type values calls} : Fills i (⟨name, .stream⟩ :: steps) calls →
      Fills i (⟨name, .stream⟩ :: steps) (.items type i values :: calls)
  | endStream {i name steps calls} : Fills (i + 1) steps calls →
      Fills i (⟨name, .stream⟩ :: steps) (.endStream i :: calls)

/-- Every run can be completed. -/
theorem Fills.exists_calls (i : Nat) (steps : List Step) : ∃ calls, Fills i steps calls := by
  induction steps generalizing i with
  | nil => exact ⟨[], .nil⟩
  | cons step steps ih =>
    obtain ⟨calls, hcalls⟩ := ih (i + 1)
    rcases step with ⟨name, _ | _⟩
    · exact ⟨.step .unit i .unit :: calls, .scalar hcalls⟩
    · exact ⟨.endStream i :: calls, .endStream hcalls⟩

namespace WriteCall

/-- Flushes belong to no step. -/
def ordered : WriteCall → Bool
  | flush => false
  | _ => true

/-- The calls, flushes aside, are the beginning of a complete run. -/
def Begins (steps : List Step) (calls : List WriteCall) : Prop :=
  ∃ more, Fills 0 steps (calls.filter ordered ++ more)

/-- The call is accepted where `next` is the step to be written. -/
def Allowed (steps : List Step) (next : Nat) : WriteCall → Prop
  | step _ i _ => next = i ∧ ∃ name, steps[i]? = some ⟨name, .scalar⟩
  | item _ i _ | items _ i _ | endStream i => next = i ∧ ∃ name, steps[i]? = some ⟨name, .stream⟩
  | flush => True

/-- The step to be written after the call. -/
def nextStep (next : Nat) : WriteCall → Nat
  | step .. | endStream _ => next + 1
  | _ => next

end WriteCall

theorem getElem?_of_drop {steps rest : List Step} {i : Nat} {step : Step}
    (h : step :: rest = steps.drop i) : steps[i]? = some step ∧ rest = steps.drop (i + 1) := by
  have hstep : steps[i]? = some step := by
    rw [← Nat.add_zero i, ← List.getElem?_drop, ← h]
    rfl
  rw [drop_of_getElem? hstep] at h
  exact ⟨hstep, (List.cons.inj h).2⟩

/-- A complete run from a step on is a call that is allowed there and a complete run from where
the call leads. -/
theorem Fills.cons_iff {steps : List Step} {next : Nat} {call : WriteCall}
    (hcall : call.ordered = true) {calls : List WriteCall} :
    Fills next (steps.drop next) (call :: calls) ↔ call.Allowed steps next ∧
      Fills (call.nextStep next) (steps.drop (call.nextStep next)) calls := by
  constructor
  · intro h
    generalize hdrop : steps.drop next = rest at h
    cases h with
    | scalar h | endStream h =>
      obtain ⟨hstep, rfl⟩ := getElem?_of_drop hdrop.symm
      exact ⟨⟨rfl, _, hstep⟩, h⟩
    | item h | items h =>
      obtain ⟨hstep, -⟩ := getElem?_of_drop hdrop.symm
      rw [← hdrop] at h
      exact ⟨⟨rfl, _, hstep⟩, h⟩
  · rintro ⟨hallowed, h⟩
    cases call with
    | flush => cases hcall
    | step | item | items | endStream =>
      obtain ⟨rfl, name, hstep⟩ := hallowed
      simp only [WriteCall.nextStep, drop_of_getElem? hstep] at h ⊢
      constructor
      exact h

namespace WriteCall

-- ---------------------------------------------------------------------------
-- Bytes
-- ---------------------------------------------------------------------------

/-- What an accepted call puts down. -/
def bytes : WriteCall → Bytes
  | step type _ value => type.codec.encode value
  | item type _ value => varint 1 ++ type.codec.encode value
  | items _ _ [] => []
  | items type _ values => varint values.length ++ values.flatMap type.codec.encode
  | endStream _ => varint 0
  | flush => []

/-- What an accepted call that starts at a position makes an index record. -/
def record (protocol : Protocol) : WriteCall → Nat → StreamIndex → StreamIndex
  | step _ i _, pos, index | endStream i, pos, index => index.markStep (protocol.stepLabel i) pos
  | item type i value, pos, index =>
    (index.markStep (protocol.stepLabel i) pos).addBlock (protocol.stepLabel i)
      (type.codec.starts (pos + (varint 1).length) [value])
  | items _ _ [], _, index | flush, _, index => index
  | items type i values, pos, index =>
    (index.markStep (protocol.stepLabel i) pos).addBlock (protocol.stepLabel i)
      (type.codec.starts (pos + (varint values.length).length) values)

def emptyBatch : WriteCall → Bool
  | items _ _ [] => true
  | _ => false

/-- The second call is the first, or the batch of the one item that the first writes. -/
inductive Batched : WriteCall → WriteCall → Prop
  | same (call) : Batched call call
  | single (type i value) : Batched (item type i value) (items type i [value])

end WriteCall

namespace Writer

variable {w w' : Writer}

-- ---------------------------------------------------------------------------
-- Accepted calls
-- ---------------------------------------------------------------------------

/-- A call that is allowed is accepted and puts down its bytes, whether or not an index is kept. -/
theorem runCall_puts (hlimit : w.out.sink.limit = none) {call : WriteCall}
    (h : call.Allowed w.order.protocol.steps w.order.next) :
    ∃ w', runCall call w = .ok () w' ∧
      Puts w w' call.bytes (call.record w.order.protocol) (call.nextStep w.order.next) := by
  have hlabel : ∀ {i name kind}, w.order.protocol.steps[i]? = some ⟨name, kind⟩ →
      w.order.protocol.stepLabel i = name := fun hstep => by
    rw [Protocol.stepLabel, Protocol.step?, hstep]
    rfl
  cases call with
  | step type i value =>
    obtain ⟨rfl, name, hstep⟩ := h
    obtain rfl := hlabel hstep
    exact writeStep_ok ⟨hlimit, rfl, hstep⟩ type value
  | item type i value =>
    obtain ⟨rfl, name, hstep⟩ := h
    obtain rfl := hlabel hstep
    obtain ⟨w', hrun, hputs⟩ :=
      writeBlock_ok ⟨hlimit, rfl, hstep⟩ type (List.cons_ne_nil value [])
    rw [List.flatMap_singleton] at hputs
    exact ⟨w', hrun, hputs⟩
  | items type i values =>
    obtain ⟨rfl, name, hstep⟩ := h
    obtain rfl := hlabel hstep
    have hcomes : w.ComesTo w.order.next _ .stream := ⟨hlimit, rfl, hstep⟩
    cases values with
    | nil => exact ⟨w, writeItems_nil hcomes type.codec, hcomes.puts_nothing⟩
    | cons value values => exact writeBlock_ok hcomes type (List.cons_ne_nil value values)
  | endStream i =>
    obtain ⟨rfl, name, hstep⟩ := h
    obtain rfl := hlabel hstep
    exact endStream_ok ⟨hlimit, rfl, hstep⟩
  | flush => exact flush_ok hlimit

/-- What an accepted call does to a writer without an index. -/
structure Takes (w w' : Writer) (data : Bytes) (next : Nat) : Prop where
  out : w'.out.Extends w.out data
  order : w'.order = { w.order with next }
  index : w'.index = none

section
variable (hlimit : w.out.sink.limit = none) (hindex : w.index = none) {i : Nat}
include hlimit hindex

theorem runCall_takes {call : WriteCall}
    (h : call.Allowed w.order.protocol.steps w.order.next) :
    ∃ w', runCall call w = .ok () w' ∧ Takes w w' call.bytes (call.nextStep w.order.next) := by
  obtain ⟨w', hrun, hputs⟩ := runCall_puts hlimit h
  exact ⟨w', hrun, hputs.out, hputs.order, by rw [hputs.index, hindex]; rfl⟩

theorem writeStep_takes (h : w.At i .scalar) (type : Ty) (value : Value) :
    ∃ w', writeStep type.codec i value w = .ok () w' ∧
      Takes w w' (type.codec.encode value) (i + 1) := by
  obtain rfl := h.1
  have hallowed : (WriteCall.step type w.order.next value).Allowed w.order.protocol.steps
      w.order.next := h
  exact runCall_takes hlimit hindex hallowed

theorem endStream_takes (h : w.At i .stream) :
    ∃ w', endStream i w = .ok () w' ∧ Takes w w' (varint 0) (i + 1) := by
  obtain rfl := h.1
  have hallowed : (WriteCall.endStream w.order.next).Allowed w.order.protocol.steps
      w.order.next := h
  exact runCall_takes hlimit hindex hallowed

theorem writeItems_takes (h : w.At i .stream) (type : Ty) (values : List Value) :
    ∃ w', writeItems type.codec i values w = .ok () w' ∧
      Takes w w' (WriteCall.items type i values).bytes i := by
  obtain rfl := h.1
  have hallowed : (WriteCall.items type w.order.next values).Allowed w.order.protocol.steps
      w.order.next := h
  exact runCall_takes hlimit hindex hallowed

end

-- ---------------------------------------------------------------------------
-- Refused calls
-- ---------------------------------------------------------------------------

/-- The refusal is told from the order alone, so it is that of all writers in the same order. -/
theorem authorize_refused_at {check : WriteOrder → Except Error Unit} {i : Nat} {kind : StepKind}
    (hcheck : w.order.next ≠ i → ∃ refusal, check w.order = .error (.protocol refusal))
    (hpass : w.order.next = i → check w.order = .ok ()) (h : ¬ w.At i kind) :
    ∃ refusal, ∀ u : Writer, u.order = w.order →
      authorize check i kind u = .error (.protocol refusal) u := by
  by_cases hnext : w.order.next = i
  · rcases w.order.protocol.stepOfKind_cases i kind with
      ⟨name, hstep, -⟩ | ⟨-, refusal, -, hmissing⟩
    · exact absurd ⟨hnext, name, hstep⟩ h
    · exact ⟨refusal, fun u hu => by simp only [authorize, hu, hpass hnext, hmissing]⟩
  · obtain ⟨refusal, hrefused⟩ := hcheck hnext
    exact ⟨refusal, fun u hu => by simp only [authorize, hu, hrefused]⟩

theorem runCall_refused {call : WriteCall}
    (h : ¬ call.Allowed w.order.protocol.steps w.order.next) :
    ∃ refusal, ∀ u : Writer, u.order = w.order →
      runCall call u = .error (.protocol refusal) u := by
  have hwrite : ∀ i kind, ¬ w.At i kind → ∃ refusal, ∀ u : Writer, u.order = w.order →
      authorize (·.checkWrite i) i kind u = .error (.protocol refusal) u := fun i kind =>
    authorize_refused_at (fun hnext => ⟨_, if_neg hnext⟩) (fun hnext => if_pos hnext)
  cases call with
  | step type i value =>
    obtain ⟨refusal, hrefused⟩ := hwrite i .scalar h
    exact ⟨refusal, fun u hu => bind_error.mpr (.inl (hrefused u hu))⟩
  | item type i value =>
    obtain ⟨refusal, hrefused⟩ := hwrite i .stream h
    exact ⟨refusal, fun u hu => bind_error.mpr (.inl (hrefused u hu))⟩
  | items type i values =>
    obtain ⟨refusal, hrefused⟩ := hwrite i .stream h
    exact ⟨refusal, fun u hu => bind_error.mpr (.inl (hrefused u hu))⟩
  | endStream i =>
    obtain ⟨refusal, hrefused⟩ : ∃ refusal, ∀ u : Writer, u.order = w.order →
        authorize (·.checkEnd i) i .stream u = .error (.protocol refusal) u :=
      authorize_refused_at (fun hnext => ⟨_, if_neg hnext⟩) (fun hnext => if_pos hnext) h
    exact ⟨refusal, fun u hu => bind_error.mpr (.inl (hrefused u hu))⟩
  | flush => exact absurd trivial h

-- ---------------------------------------------------------------------------
-- Runs
-- ---------------------------------------------------------------------------

/-- The calls that are accepted of these, and the writer after them. A call that is refused does
not stop the caller. -/
def attempts : List WriteCall → Writer → List WriteCall × Writer
  | [], w => ([], w)
  | call :: calls, w =>
    match runCall call w with
    | .ok () w' => (call :: (attempts calls w').1, (attempts calls w').2)
    | .error _ w' => attempts calls w'

/-- A writer of the protocol that has put down `before` and then accepted the calls `done`. -/
structure Stands (w : Writer) (protocol : Protocol) (before : Bytes) (done : List WriteCall) :
    Prop where
  limit : w.out.sink.limit = none
  index : w.index = none
  protocol_eq : w.order.protocol = protocol
  bound : w.order.next ≤ protocol.stepCount
  written : w.out.written = before ++ done.flatMap WriteCall.bytes
  fills : ∀ more, Fills 0 protocol.steps (done.filter WriteCall.ordered ++ more) ↔
    Fills w.order.next (protocol.steps.drop w.order.next) more

section
variable {protocol : Protocol} {before : Bytes} {done : List WriteCall}

theorem allowed_bound {steps : List Step} {next : Nat} {call : WriteCall}
    (h : call.Allowed steps next) (hnext : next ≤ steps.length) :
    call.nextStep next ≤ steps.length := by
  cases call with
  | step | endStream =>
    obtain ⟨rfl, name, hstep⟩ := h
    exact (List.getElem?_eq_some_iff.mp hstep).1
  | item | items | flush => exact hnext

theorem Stands.takes (h : w.Stands protocol before done) {call : WriteCall}
    (hallowed : call.Allowed protocol.steps w.order.next)
    (htakes : Takes w w' call.bytes (call.nextStep w.order.next)) :
    w'.Stands protocol before (done ++ [call]) := by
  have hnext : w'.order.next = call.nextStep w.order.next := by rw [htakes.order]
  refine ⟨htakes.out.limit, htakes.index, by rw [htakes.order]; exact h.protocol_eq, ?_, ?_, ?_⟩
  · rw [hnext]
    exact allowed_bound hallowed h.bound
  · simp [htakes.out.written, h.written]
  · intro more
    cases hordered : call.ordered with
    | true =>
      simp only [List.filter_append, List.filter_cons, hordered, if_true, List.filter_nil,
        List.append_assoc, List.singleton_append, h.fills, Fills.cons_iff hordered, hallowed,
        true_and, hnext]
    | false =>
      obtain rfl : call = .flush := by cases call <;> first | rfl | cases hordered
      simpa [WriteCall.ordered, hnext, WriteCall.nextStep] using h.fills more

theorem Stands.allowed_iff (h : w.Stands protocol before done) (call : WriteCall) :
    WriteCall.Begins protocol.steps (done ++ [call]) ↔
      call.Allowed protocol.steps w.order.next := by
  cases hordered : call.ordered with
  | true =>
    simp only [WriteCall.Begins, List.filter_append, List.filter_cons, hordered, if_true,
      List.filter_nil, List.append_assoc, List.singleton_append, h.fills, Fills.cons_iff hordered]
    constructor
    · rintro ⟨more, hallowed, -⟩
      exact hallowed
    · intro hallowed
      obtain ⟨more, hmore⟩ := Fills.exists_calls (call.nextStep w.order.next)
        (protocol.steps.drop (call.nextStep w.order.next))
      exact ⟨more, hallowed, hmore⟩
  | false =>
    obtain rfl : call = .flush := by cases call <;> first | rfl | cases hordered
    simp only [WriteCall.Begins, WriteCall.Allowed, iff_true]
    obtain ⟨more, hmore⟩ := Fills.exists_calls w.order.next (protocol.steps.drop w.order.next)
    exact ⟨more, by simpa [WriteCall.ordered] using (h.fills more).mpr hmore⟩

/-- A call begins a complete run together with those accepted before and is accepted, or it does
not and is refused. -/
theorem Stands.call (h : w.Stands protocol before done) (call : WriteCall) :
    (WriteCall.Begins protocol.steps (done ++ [call]) ∧
      ∃ w', runCall call w = .ok () w' ∧ w'.Stands protocol before (done ++ [call])) ∨
    (¬ WriteCall.Begins protocol.steps (done ++ [call]) ∧
      ∃ refusal, runCall call w = .error (.protocol refusal) w) := by
  by_cases hallowed : call.Allowed protocol.steps w.order.next
  · have hcall := hallowed
    rw [← h.protocol_eq] at hcall
    obtain ⟨w', hrun, htakes⟩ := runCall_takes h.limit h.index hcall
    exact .inl ⟨(h.allowed_iff call).mpr hallowed, w', hrun, h.takes hallowed htakes⟩
  · have hcall := hallowed
    rw [← h.protocol_eq] at hcall
    obtain ⟨refusal, hrefused⟩ := runCall_refused hcall
    exact .inr ⟨mt (h.allowed_iff call).mp hallowed, refusal, hrefused w rfl⟩

theorem Stands.after (h : w.Stands protocol before done) (calls : List WriteCall) :
    (attempts calls w).2.Stands protocol before (done ++ (attempts calls w).1) := by
  induction calls generalizing w done with
  | nil => simpa [attempts] using h
  | cons call calls ih =>
    rcases h.call call with ⟨-, w', hrun, hstands⟩ | ⟨-, refusal, hrun⟩
    · simpa [attempts, hrun] using ih hstands
    · simpa [attempts, hrun] using ih h

theorem runCall_emptyBatch {call : WriteCall} (h : call.emptyBatch = true)
    (hrun : runCall call w = .ok () w') : w' = w := by
  cases call with
  | items type i values =>
    cases values with
    | cons => cases h
    | nil =>
      obtain ⟨found, w₁, hallowed, hdone⟩ := bind_ok.mp hrun
      obtain ⟨rfl, -⟩ := authorize_write_inv hallowed
      obtain ⟨-, rfl⟩ := pure_ok.mp hdone
      rfl
  | _ => cases h

/-- The accepted calls alone, without the empty batches, lead to the same writer. -/
theorem Stands.runs_kept (h : w.Stands protocol before done) (calls : List WriteCall) :
    runCalls ((attempts calls w).1.filter fun call => !call.emptyBatch) w =
      .ok () (attempts calls w).2 := by
  induction calls generalizing w done with
  | nil => rfl
  | cons call calls ih =>
    rcases h.call call with ⟨-, w', hrun, hstands⟩ | ⟨-, refusal, hrun⟩
    · simp only [attempts, hrun, List.filter_cons]
      cases hempty : call.emptyBatch with
      | true =>
        obtain rfl := runCall_emptyBatch hempty hrun
        exact ih hstands
      | false => exact bind_ok.mpr ⟨(), w', hrun, ih hstands⟩
    · simpa only [attempts, hrun] using ih h

theorem attempts_batched {calls calls' : List WriteCall}
    (h : List.Forall₂ WriteCall.Batched calls calls') (w : Writer) :
    (attempts calls' w).2 = (attempts calls w).2 := by
  induction h generalizing w with
  | nil => rfl
  | @cons call call' calls calls' hcall _ ih =>
    have hsame : runCall call' = runCall call := by cases hcall <;> rfl
    simp only [attempts, hsame]
    split <;> exact ih _

theorem bytes_abandon (h : w.out.sink.limit = none) : w.abandon.bytes = w.out.written := by
  rw [abandon, OutputStream.bytes_abandon (Sink.fits_of_no_limit h), Sink.keep, h]

theorem Stands.fills_iff (h : w.Stands protocol before done) :
    Fills 0 protocol.steps (done.filter WriteCall.ordered) ↔
      w.order.next = protocol.stepCount := by
  have hdone := h.fills []
  rw [List.append_nil] at hdone
  rw [hdone]
  constructor
  · intro hfills
    generalize hdrop : protocol.steps.drop w.order.next = rest at hfills
    cases hfills
    exact Nat.le_antisymm h.bound (List.drop_eq_nil_iff.mp hdrop)
  · intro hnext
    rw [List.drop_eq_nil_iff.mpr (Nat.le_of_eq hnext.symm)]
    exact .nil

/-- Closing before the last step adds nothing to what is dropped. -/
theorem close_refused (hnext : w.order.next ≠ w.order.protocol.stepCount) :
    ∃ refusal, ∀ u : Writer, u.order = w.order →
      u.close = (.error (.protocol refusal), u.abandon) := by
  have hcheck : ∃ refusal, w.order.checkClose = .error (.protocol refusal) :=
    ⟨_, if_neg (by simpa [WriteOrder.complete] using hnext)⟩
  obtain ⟨refusal, hcheck⟩ := hcheck
  refine ⟨refusal, fun u hu => ?_⟩
  rw [← hu] at hcheck
  simp only [close, settle_refused hcheck]

/-- Closing succeeds behind a complete run, and no other. -/
theorem Stands.closes (h : w.Stands protocol before done) :
    (w.order.next = protocol.stepCount ∧
      ∃ sink, w.close = (.ok (), sink) ∧ sink.bytes = w.out.written) ∨
    (w.order.next ≠ protocol.stepCount ∧
      ∃ refusal, w.close = (.error (.protocol refusal), w.abandon)) := by
  by_cases hnext : w.order.next = protocol.stepCount
  · obtain ⟨sink, hclose, hbytes⟩ := close_ok h.limit (by rw [h.protocol_eq]; exact hnext)
    refine .inl ⟨hnext, sink, hclose, ?_⟩
    rw [hbytes, sectionBytes, h.index]
    exact List.append_nil _
  · obtain ⟨refusal, hrefused⟩ := close_refused (h.protocol_eq ▸ hnext)
    exact .inr ⟨hnext, refusal, hrefused w rfl⟩

end

end Writer

/-- Calls for the file of ticks, four of them out of order. -/
def Ticks.attempted : List WriteCall :=
  [.item .unit 1 .unit, .step .bool 0 (.bool true), .endStream 0, .items .unit 1 [],
   .item .unit 1 .unit, .flush, .endStream 1, .step .bool 0 (.bool true), .endStream 2,
   .endStream 3]

namespace Writer

/-- Whatever calls a caller attempts, exactly those are accepted that, after the calls accepted
before, begin a complete run. The others are refused and change nothing, and closing is refused
before the run is complete. In the end the sink holds the header and what the accepted calls
encode, closed or not. Neither refused calls nor batches of no items show in it, and it does not
tell an item written by itself from a batch of one. -/
theorem write_order (protocol : Protocol) {sink : Sink} (hlimit : sink.limit = none)
    (bufferSize : Nat) :
    ∃ w₀, Writer.open protocol sink bufferSize = .ok w₀ ∧ ∀ calls : List WriteCall,
      let done := (attempts calls w₀).1
      let w := (attempts calls w₀).2
      (∀ call : WriteCall,
        (WriteCall.Begins protocol.steps (done ++ [call]) → ∃ w', runCall call w = .ok () w') ∧
        (¬ WriteCall.Begins protocol.steps (done ++ [call]) →
          ∃ refusal, runCall call w = .error (.protocol refusal) w)) ∧
      (Fills 0 protocol.steps (done.filter WriteCall.ordered) ↔
        w.order.next = protocol.stepCount) ∧
      (w.order.next = protocol.stepCount → w.close.1 = .ok ()) ∧
      (w.order.next ≠ protocol.stepCount → ∃ refusal, w.close.1 = .error (.protocol refusal)) ∧
      (∀ final, final = w.close.2 ∨ final = w.abandon →
        final.bytes = sink.bytes ++ Header.bytes protocol.schema ++ done.flatMap WriteCall.bytes) ∧
      runCalls (done.filter fun call => !call.emptyBatch) w₀ = .ok () w ∧
      ∀ calls', List.Forall₂ WriteCall.Batched calls calls' → (attempts calls' w₀).2 = w := by
  obtain ⟨w₀, hopen, hopened⟩ := open_ok protocol hlimit bufferSize
  refine ⟨w₀, hopen, fun calls => ?_⟩
  have hstart : w₀.Stands protocol (sink.bytes ++ Header.bytes protocol.schema) [] := by
    refine ⟨hopened.limit, hopened.index, ?_, ?_, ?_, ?_⟩ <;> simp [hopened.order, hopened.written]
  have hstands := hstart.after calls
  rw [List.nil_append] at hstands
  have habandon : (attempts calls w₀).2.abandon.bytes =
      sink.bytes ++ Header.bytes protocol.schema ++
        (attempts calls w₀).1.flatMap WriteCall.bytes :=
    (bytes_abandon hstands.limit).trans hstands.written
  refine ⟨fun call => ?_, hstands.fills_iff, ?_, ?_, ?_, hstart.runs_kept calls,
    fun calls' hcalls => attempts_batched hcalls w₀⟩
  · rcases hstands.call call with ⟨hbegins, w', hrun, -⟩ | ⟨hnot, hrefused⟩
    · exact ⟨fun _ => ⟨w', hrun⟩, fun hnot => absurd hbegins hnot⟩
    · exact ⟨fun hbegins => absurd hbegins hnot, fun _ => hrefused⟩
  · intro hnext
    rcases hstands.closes with ⟨-, final, hclose, -⟩ | ⟨hne, -⟩
    · rw [hclose]
    · exact absurd hnext hne
  · intro hne
    rcases hstands.closes with ⟨hnext, -⟩ | ⟨-, refusal, hclose⟩
    · exact absurd hnext hne
    · exact ⟨refusal, by rw [hclose]⟩
  · rintro final (rfl | rfl)
    · rcases hstands.closes with ⟨-, final, hclose, hbytes⟩ | ⟨-, refusal, hclose⟩
      · rw [hclose, ← hstands.written]
        exact hbytes
      · rw [hclose]
        exact habandon
    · exact habandon

/-- A file of one tick and no counts is complete after these calls. -/
theorem write_order_ticks :
    ∃ w₀, Writer.open Ticks.protocol {} 0 = .ok w₀ ∧
      (attempts Ticks.attempted w₀).2.close.1 = .ok () ∧
      (attempts Ticks.attempted w₀).2.close.2.bytes =
        Header.bytes Ticks.protocol.schema ++ [1, 1, 0, 0] := by
  obtain ⟨w₀, hopen, hruns⟩ := write_order Ticks.protocol (show ({} : Sink).limit = none from rfl) 0
  obtain ⟨-, -, hclose, -, hbytes, -⟩ := hruns Ticks.attempted
  have hrun : (match Writer.open Ticks.protocol {} 0 with
      | .error _ => none
      | .ok w₀ => some ((attempts Ticks.attempted w₀).2.order.next,
          (attempts Ticks.attempted w₀).1.flatMap WriteCall.bytes)) =
      some (3, [1, 1, 0, 0]) := by decide +kernel
  simp only [hopen, Option.some.injEq, Prod.mk.injEq] at hrun
  obtain ⟨hnext, hdone⟩ := hrun
  refine ⟨w₀, hopen, hclose hnext, ?_⟩
  rw [hbytes _ (.inl rfl), hdone]
  rfl

end Writer

end TypedStream
