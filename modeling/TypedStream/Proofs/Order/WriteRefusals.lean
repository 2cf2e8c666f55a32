import TypedStream.Proofs.Order.Reading
import TypedStream.Proofs.Order.Writing

/-!
# What a writer refuses

A writer stands before one of the steps or behind the last, whatever has been attempted, and
whether its sink takes all that is written or fails. It refuses exactly what its order check stops.
Each refusal names calls that the check lets through (`Writer.InOrder.guided`).
-/

namespace TypedStream

-- ---------------------------------------------------------------------------
-- Requests
-- ---------------------------------------------------------------------------

/-- A call of a writer, or the wish to close it. -/
inductive WriteRequest where
  | call (call : WriteCall)
  | close

namespace WriteRequest

/-- What the request is called. A flush has no place in the order and is never refused. -/
def name? (protocol : Protocol) : WriteRequest → Option Call
  | call (.step _ i _) | call (.item _ i _) | call (.items _ i _) =>
    some (.write (protocol.stepLabel i))
  | call (.endStream i) => some (.finish (protocol.stepLabel i))
  | call .flush => none
  | close => some .close

/-- The step of the request, if it is for one, is among those of the protocol. -/
def OnStep (protocol : Protocol) : WriteRequest → Prop
  | call (.step _ i _) | call (.item _ i _) | call (.items _ i _) | call (.endStream i) =>
    i < protocol.stepCount
  | call .flush | close => True

/-- The step of the request, if it is for one, is there and is written with such calls. -/
def Fits (protocol : Protocol) : WriteRequest → Prop
  | call (.step _ i _) => ∃ name, protocol.step? i = some ⟨name, .scalar⟩
  | call (.item _ i _) | call (.items _ i _) | call (.endStream i) =>
    ∃ name, protocol.step? i = some ⟨name, .stream⟩
  | call .flush | close => True

/-- The order check that the request has to pass. -/
def check (order : WriteOrder) : WriteRequest → Except Error Unit
  | call (.step _ i _) | call (.item _ i _) | call (.items _ i _) => order.checkWrite i
  | call (.endStream i) => order.checkEnd i
  | call .flush => .ok ()
  | close => order.checkClose

/-- The writer refuses the request and is as before. Closing is the last thing done to a writer,
so there it is the error alone that counts. -/
def Refused (w : Writer) (error : Error) : WriteRequest → Prop
  | call request => Writer.runCall request w = .error error w
  | close => w.close.1 = .error error

theorem Fits.onStep {protocol : Protocol} {request : WriteRequest} (h : request.Fits protocol) :
    request.OnStep protocol := by
  cases request with
  | close => trivial
  | call call =>
    cases call with
    | flush => trivial
    | _ =>
      obtain ⟨name, hstep⟩ := h
      exact Protocol.lt_stepCount hstep

end WriteRequest

-- ---------------------------------------------------------------------------
-- Failures of the sink
-- ---------------------------------------------------------------------------

namespace OutputStream

variable {s s' : OutputStream} {error : Error}

theorem flush_error (h : flush s = .error error s') : error = .io .other := by
  unfold flush at h
  split at h <;> cases h
  rfl

theorem enqueue_error {data : Bytes} (h : enqueue data s = .error error s') :
    error = .io .other := by
  unfold enqueue at h
  split at h
  · cases h
  · split at h <;> cases h
    rfl

theorem put_error {data : Bytes} (h : put data s = .error error s') : error = .io .other := by
  have hrest : ∀ {t : OutputStream}, (enqueue data >>= fun _ =>
      modify fun s => { s with pos := s.pos + data.length }) t = .error error s' →
      error = .io .other := by
    intro t h
    rcases bind_error.mp h with henqueue | ⟨_, u, -, hpos⟩
    · exact enqueue_error henqueue
    · cases hpos
  change (if s.capacity - s.pending.size < data.length then _ else _ :
    EStateM Error OutputStream Unit) s = _ at h
  split at h
  · rcases bind_error.mp h with hflush | ⟨_, t, -, h⟩
    · exact flush_error hflush
    · exact hrest h
  · exact hrest h

theorem putAll_error {writes : List Bytes} (h : putAll writes s = .error error s') :
    error = .io .other := by
  induction writes generalizing s with
  | nil => cases h
  | cons data writes ih =>
    rcases bind_error.mp h with hput | ⟨_, t, -, hrest⟩
    · exact put_error hput
    · exact ih hrest

theorem putItems_error {codec : Codec α} {items : List α} {offsets : List Nat}
    (h : Writer.putItems codec items offsets s = .error error s') : error = .io .other := by
  induction items generalizing s offsets with
  | nil => cases h
  | cons item items ih =>
    rw [Writer.putItems, get_bind] at h
    rcases bind_error.mp h with hput | ⟨_, t, -, hrest⟩
    · exact putAll_error hput
    · exact ih hrest

end OutputStream

namespace Writer

/-- Where a writer of the protocol can stand: before one of the steps, or behind the last. -/
structure InOrder (w : Writer) (protocol : Protocol) : Prop where
  protocol_eq : w.order.protocol = protocol
  bound : w.order.next ≤ protocol.stepCount

section
variable {w w' : Writer} {protocol : Protocol} {i : Nat} {kind : StepKind}

theorem InOrder.of_order (h : w.InOrder protocol) (ho : w'.order = w.order) :
    w'.InOrder protocol := by
  constructor
  · rw [ho, h.protocol_eq]
  · rw [ho]
    exact h.bound

theorem InOrder.finish (h : w.InOrder protocol) {name : String}
    (hstep : protocol.step? i = some ⟨name, kind⟩) (ho : w'.order = w.order) :
    InOrder { w' with order := w'.order.finish i } protocol where
  protocol_eq := (h.of_order ho).protocol_eq
  bound := Protocol.lt_stepCount hstep

theorem onStream_ends {act : EStateM Error OutputStream α}
    (hact : ∀ {error s}, act w.out = .error error s → error = .io .other) :
    Ends (fun w' => w'.order = w.order) Error.InTurn (onStream act w) := by
  unfold onStream
  split
  · exact rfl
  · next error s herror =>
    obtain rfl := hact herror
    exact ⟨rfl, Error.inTurn_io _⟩

theorem mark_ends (name : String) :
    Ends (fun w' => w'.order = w.order) Error.InTurn (mark name w) := rfl

theorem putBlock_ends (codec : Codec α) (name : String) (items : List α) :
    Ends (fun w' => w'.order = w.order) Error.InTurn (putBlock codec name items w) := by
  rcases Option.eq_none_or_eq_some w.index with hindex | ⟨index, hindex⟩
  · rw [putBlock_none hindex]
    exact onStream_ends OutputStream.putAll_error
  · rw [putBlock_some hindex]
    exact (onStream_ends OutputStream.putItems_error).bind (fun _ => id) fun _ w₁ ho => ho

/-- What comes after the order check: the step is looked up, and if it is there, written. -/
theorem passed_ends {check : WriteOrder → Except Error Unit} (hpass : check w.order = .ok ())
    (h : w.InOrder protocol) {f : Step → EStateM Error Writer Unit}
    (hf : ∀ name, protocol.step? i = some ⟨name, kind⟩ →
      Ends (·.InOrder protocol) Error.InTurn (f ⟨name, kind⟩ w)) :
    Ends (·.InOrder protocol) Error.InTurn ((authorize check i kind >>= f) w) := by
  rcases protocol.stepOfKind_cases i kind with
    ⟨name, hstep, hfound⟩ | ⟨-, refusal, hturn, hmissing⟩
  · simpa only [bind, EStateM.bind, authorize, hpass, h.protocol_eq, hfound] using hf name hstep
  · simp only [bind, EStateM.bind, authorize, hpass, h.protocol_eq, hmissing]
    exact ⟨h, hturn⟩

theorem writeStep_ends (h : w.InOrder protocol) (hpass : w.order.checkWrite i = .ok ())
    (codec : Codec α) (value : α) :
    Ends (·.InOrder protocol) Error.InTurn (writeStep codec i value w) := by
  refine passed_ends hpass h fun name hstep => ?_
  refine (mark_ends name).bind (fun _ ho => h.of_order ho) fun _ w₁ ho₁ => ?_
  refine (onStream_ends OutputStream.putAll_error).bind
    (fun _ ho => h.of_order (ho.trans ho₁)) fun _ w₂ ho₂ => ?_
  exact h.finish hstep (ho₂.trans ho₁)

theorem writeItems_ends (h : w.InOrder protocol) (hpass : w.order.checkWrite i = .ok ())
    (codec : Codec α) (items : List α) :
    Ends (·.InOrder protocol) Error.InTurn (writeItems codec i items w) := by
  refine passed_ends hpass h fun name hstep => ?_
  dsimp only
  split
  · exact h
  · refine (mark_ends name).bind (fun _ ho => h.of_order ho) fun _ w₁ ho₁ => ?_
    refine (onStream_ends OutputStream.put_error).bind
      (fun _ ho => h.of_order (ho.trans ho₁)) fun _ w₂ ho₂ => ?_
    exact (putBlock_ends codec name items).mono fun _ ho => h.of_order (ho.trans (ho₂.trans ho₁))

theorem endStream_ends (h : w.InOrder protocol) (hpass : w.order.checkEnd i = .ok ()) :
    Ends (·.InOrder protocol) Error.InTurn (endStream i w) := by
  refine passed_ends hpass h fun name hstep => ?_
  refine (mark_ends name).bind (fun _ ho => h.of_order ho) fun _ w₁ ho₁ => ?_
  refine (onStream_ends OutputStream.put_error).bind
    (fun _ ho => h.of_order (ho.trans ho₁)) fun _ w₂ ho₂ => ?_
  exact h.finish hstep (ho₂.trans ho₁)

/-- A call that passes the order check leaves the writer in order and fails for another reason, if
it does. -/
theorem runCall_passed (h : w.InOrder protocol) {call : WriteCall}
    (hpass : (WriteRequest.call call).check w.order = .ok ()) :
    Ends (·.InOrder protocol) Error.InTurn (runCall call w) := by
  cases call with
  | step type i value => exact writeStep_ends h hpass type.codec value
  | item type i value => exact writeItems_ends h hpass type.codec [value]
  | items type i values => exact writeItems_ends h hpass type.codec values
  | endStream i => exact endStream_ends h hpass
  | flush => exact (onStream_ends OutputStream.flush_error).mono fun _ ho => h.of_order ho

/-- A call that does not pass it changes nothing. -/
theorem runCall_stopped {call : WriteCall} {error : Error}
    (hstop : (WriteRequest.call call).check w.order = .error error) :
    runCall call w = .error error w := by
  have hauthorize : ∀ {check : WriteOrder → Except Error Unit} {i kind},
      check w.order = .error error → authorize check i kind w = .error error w :=
    fun hcheck => by simp only [authorize, hcheck]
  cases call with
  | flush => cases hstop
  | _ => exact bind_error.mpr (.inl (hauthorize hstop))

theorem runCall_inOrder (h : w.InOrder protocol) (call : WriteCall) :
    Ends (·.InOrder protocol) (fun _ => True) (runCall call w) := by
  cases hcheck : (WriteRequest.call call).check w.order with
  | ok found =>
    have hends := runCall_passed h hcheck
    cases hrun : runCall call w with
    | ok _ w' => rwa [hrun] at hends
    | error error w' =>
      rw [hrun] at hends
      exact ⟨hends.1, trivial⟩
  | error error =>
    rw [runCall_stopped hcheck]
    exact ⟨h, trivial⟩

theorem inOrder_attempts (h : w.InOrder protocol) (calls : List WriteCall) :
    (attempts calls w).2.InOrder protocol := by
  induction calls generalizing w with
  | nil => exact h
  | cons call calls ih =>
    have hends := runCall_inOrder h call
    unfold attempts
    cases hrun : runCall call w with
    | ok _ w' =>
      rw [hrun] at hends
      exact ih hends
    | error error w' =>
      rw [hrun] at hends
      exact ih hends.1

theorem start_inOrder {out : OutputStream} {index : Option StreamIndex}
    (h : start protocol out index = .ok w) : w.InOrder protocol := by
  unfold start at h
  split at h
  · cases h
    exact ⟨rfl, Nat.zero_le _⟩
  · cases h

theorem open_inOrder {sink : Sink} {bufferSize : Nat}
    (h : Writer.open protocol sink bufferSize = .ok w) : w.InOrder protocol := start_inOrder h

theorem openIndexed_inOrder {sink : Sink} {bufferSize : Nat}
    (h : Writer.openIndexed protocol sink bufferSize = .ok w) : w.InOrder protocol := by
  unfold openIndexed at h
  split at h
  · exact start_inOrder h
  · cases h

-- ---------------------------------------------------------------------------
-- What a writer refuses
-- ---------------------------------------------------------------------------

theorem close_passed (hpass : w.order.checkClose = .ok ()) {error : Error}
    (h : w.close.1 = .error error) : error.InTurn := by
  have hflush : ∀ u : Writer, Ends (fun _ => True) Error.InTurn (flush u) := fun u =>
    (onStream_ends OutputStream.flush_error).mono fun _ _ => trivial
  have hsettle : Ends (fun _ => True) Error.InTurn (settle w) := by
    rw [settle, get_bind, hpass]
    refine Ends.bind (P := fun _ => True) ?_ (fun _ _ => trivial) fun _ u _ => hflush u
    rw [putIndex, get_bind]
    cases w.index with
    | none => exact trivial
    | some index => exact (onStream_ends OutputStream.putAll_error).mono fun _ _ => trivial
  unfold close at h
  split at h
  · next u hrun =>
    unfold release OutputStream.close at h
    split at h
    · cases h
    · next error' s herror =>
      cases h
      rw [OutputStream.flush_error herror]
      exact Error.inTurn_io _
  · next error' u hrun =>
    cases h
    rw [hrun] at hsettle
    exact hsettle.2

theorem close_stopped {error : Error} (hstop : w.order.checkClose = .error error) :
    w.close.1 = .error error := by
  simp only [close, settle_refused hstop]

theorem InOrder.check_of_runCall (h : w.InOrder protocol) {call : WriteCall}
    {expected attempted : Call}
    (hrun : runCall call w = .error (.protocol (.outOfOrder expected attempted)) w') :
    (WriteRequest.call call).check w.order =
      .error (.protocol (.outOfOrder expected attempted)) := by
  cases hcheck : (WriteRequest.call call).check w.order with
  | ok found =>
    have hends := runCall_passed h hcheck
    rw [hrun] at hends
    exact absurd rfl (hends.2 expected attempted)
  | error error =>
    cases (runCall_stopped hcheck).symm.trans hrun
    rfl

/-- Out of order is what the order check finds so, and nothing else. -/
theorem InOrder.refused_iff (h : w.InOrder protocol) {request : WriteRequest}
    {expected attempted : Call} :
    request.Refused w (.protocol (.outOfOrder expected attempted)) ↔
      request.check w.order = .error (.protocol (.outOfOrder expected attempted)) := by
  cases request with
  | call call => exact ⟨h.check_of_runCall, runCall_stopped⟩
  | close =>
    refine ⟨fun hrefused => ?_, close_stopped⟩
    cases hcheck : w.order.checkClose with
    | ok found => exact absurd rfl (close_passed hcheck hrefused expected attempted)
    | error error =>
      cases (close_stopped hcheck).symm.trans hrefused
      exact hcheck

/-- The order check names the request that it stops. -/
theorem InOrder.check_names (h : w.InOrder protocol) {request : WriteRequest}
    {expected attempted : Call}
    (hcheck : request.check w.order = .error (.protocol (.outOfOrder expected attempted))) :
    expected = w.order.expected ∧ request.name? protocol = some attempted ∧
      attempted.single = true := by
  have hrefuse : ∀ {passes : Prop} [Decidable passes] {name : Call},
      (if passes then .ok () else w.order.refuse name) =
        (.error (.protocol (.outOfOrder expected attempted)) : Except Error Unit) →
      expected = w.order.expected ∧ attempted = name := by
    intro passes _ name hrefused
    split at hrefused
    · cases hrefused
    · cases hrefused
      exact ⟨rfl, rfl⟩
  cases request with
  | close =>
    obtain ⟨hexpected, rfl⟩ := hrefuse hcheck
    exact ⟨hexpected, rfl, rfl⟩
  | call call =>
    rw [← h.protocol_eq]
    cases call with
    | flush => cases hcheck
    | _ =>
      obtain ⟨hexpected, rfl⟩ := hrefuse hcheck
      exact ⟨hexpected, rfl, rfl⟩

/-- What is expected of a writer: the end or the items of a stream, a value, or to be closed. -/
theorem InOrder.expected_cases (h : w.InOrder protocol) :
    (∃ name, protocol.step? w.order.next = some ⟨name, .stream⟩ ∧
      w.order.expected = .writeOrFinish (protocol.stepLabel w.order.next)) ∨
    (∃ name, protocol.step? w.order.next = some ⟨name, .scalar⟩ ∧
      w.order.expected = .write (protocol.stepLabel w.order.next)) ∨
    (w.order.next = protocol.stepCount ∧ w.order.expected = .close) := by
  unfold WriteOrder.expected
  rw [h.protocol_eq]
  rcases Nat.lt_or_ge w.order.next protocol.stepCount with hlt | hge
  · obtain ⟨⟨name, kind⟩, hstep⟩ := Protocol.exists_step hlt
    rw [hstep, Protocol.stepLabel_eq hstep]
    cases kind with
    | stream => exact .inl ⟨name, rfl, rfl⟩
    | scalar => exact .inr (.inl ⟨name, rfl, rfl⟩)
  · refine .inr (.inr ⟨Nat.le_antisymm h.bound hge, ?_⟩)
    rw [Protocol.step?, List.getElem?_eq_none hge]

/-- Out of order are the requests that the order check stops, and no others. Each refusal leaves
the writer as it was and is a guide. -/
structure Guided (w : Writer) (protocol : Protocol) : Prop where
  refused_iff : ∀ {request : WriteRequest} {expected attempted : Call},
    request.Refused w (.protocol (.outOfOrder expected attempted)) ↔
      request.check w.order = .error (.protocol (.outOfOrder expected attempted))
  unchanged : ∀ {call : WriteCall} {expected attempted : Call} {w' : Writer},
    runCall call w = .error (.protocol (.outOfOrder expected attempted)) w' → w' = w
  guides : ∀ {request : WriteRequest} {expected attempted : Call}, request.OnStep protocol →
    request.Refused w (.protocol (.outOfOrder expected attempted)) →
      Call.Guides (WriteRequest.name? protocol) (WriteRequest.Fits protocol)
        (fun next => next.check w.order = .ok ()) request expected attempted

section
variable (hnames : (protocol.steps.map Step.name).Nodup)
include hnames

/-- A request that is called like one for the next step is for the next step. -/
theorem check_here (hnext : w.order.next < protocol.stepCount) {option : Call}
    (hoption : option = .write (protocol.stepLabel w.order.next) ∨
      option = .finish (protocol.stepLabel w.order.next))
    {request : WriteRequest} (hon : request.OnStep protocol)
    (hname : request.name? protocol = some option) : request.check w.order = .ok () := by
  have hhere : ∀ {i}, i < protocol.stepCount →
      protocol.stepLabel i = protocol.stepLabel w.order.next → w.order.next = i :=
    fun hi hlabel => (Protocol.stepLabel_inj hnames hi hnext hlabel).symm
  cases request with
  | close => rcases hoption with rfl | rfl <;> cases hname
  | call call =>
    cases call with
    | flush => rfl
    | _ =>
      rcases hoption with rfl | rfl <;>
        simp only [WriteRequest.name?, Option.some.injEq, Call.write.injEq, Call.finish.injEq,
          reduceCtorEq] at hname
      exact if_pos (hhere hon hname)

theorem InOrder.check_option (h : w.InOrder protocol) {option : Call}
    (hmem : option ∈ w.order.expected.options) :
    (∃ next : WriteRequest, next.Fits protocol ∧ next.name? protocol = some option) ∧
      ∀ next : WriteRequest, next.OnStep protocol → next.name? protocol = some option →
        next.check w.order = .ok () := by
  rcases h.expected_cases with
    ⟨name, hstep, hexpected⟩ | ⟨name, hstep, hexpected⟩ | ⟨hend, hexpected⟩
  · rw [hexpected] at hmem
    have hoption : option = .write (protocol.stepLabel w.order.next) ∨
        option = .finish (protocol.stepLabel w.order.next) := by
      simpa [Call.options] using hmem
    refine ⟨?_, fun next => check_here hnames (Protocol.lt_stepCount hstep) hoption⟩
    rcases hoption with rfl | rfl
    · exact ⟨.call (.item .unit _ .unit), ⟨name, hstep⟩, rfl⟩
    · exact ⟨.call (.endStream _), ⟨name, hstep⟩, rfl⟩
  · rw [hexpected] at hmem
    obtain rfl : option = .write (protocol.stepLabel w.order.next) := by
      simpa [Call.options] using hmem
    exact ⟨⟨.call (.step .unit _ .unit), ⟨name, hstep⟩, rfl⟩,
      fun next => check_here hnames (Protocol.lt_stepCount hstep) (.inl rfl)⟩
  · rw [hexpected] at hmem
    obtain rfl : option = .close := by simpa [Call.options] using hmem
    refine ⟨⟨.close, trivial, rfl⟩, fun next _ hname => ?_⟩
    cases next with
    | close => exact if_pos (by simpa [WriteOrder.complete, h.protocol_eq] using hend)
    | call call => cases call <;> cases hname

theorem InOrder.guided (h : w.InOrder protocol) : w.Guided protocol where
  refused_iff := h.refused_iff
  unchanged hrun := by
    cases (runCall_stopped (h.check_of_runCall hrun)).symm.trans hrun
    rfl
  guides {request expected attempted} hon hrefused := by
    have hcheck := h.refused_iff.mp hrefused
    obtain ⟨rfl, hname, hsingle⟩ := h.check_names hcheck
    refine Call.guides hname hsingle hon ?_ (fun _ => WriteRequest.Fits.onStep)
      fun option => h.check_option hnames
    rw [hcheck]
    nofun

end

end
end Writer

end TypedStream
