import TypedStream.Proofs.Landing
import TypedStream.Proofs.Order.WriteRefusals

/-!
# What a reader refuses, and what refusals are good for

A reader refuses, among the calls that suit its protocol, exactly what its order check stops. As
for writers, the refusal names what the check lets through. This holds wherever reads and seeks can
take a reader, also behind a stream whose end has not been reported (`refusals_guide`).
-/

namespace TypedStream

-- ---------------------------------------------------------------------------
-- The order check
-- ---------------------------------------------------------------------------

namespace ReadOrder

variable {protocol : Protocol} {place : ReadPlace} {i : Nat} {error : Error}

theorem beginScalar_passes :
    (fun _ => ()) <$> beginScalar ⟨protocol, place⟩ i = .ok () ↔ place.Faces i := by
  cases place with
  | «at» here =>
    by_cases hhere : here = i
    · simp [beginScalar, ReadPlace.Faces, hhere]
    · simp [beginScalar, ReadPlace.Faces, hhere, refuse]
  | drained before =>
    by_cases hbehind : before + 1 = i
    · simp [beginScalar, ReadPlace.Faces, hbehind]
    · simp [beginScalar, ReadPlace.Faces, hbehind, refuse]

theorem beginStream_passes :
    (fun _ => ()) <$> beginStream ⟨protocol, place⟩ i = .ok () ↔
      place.Faces i ∨ place = .drained i := by
  cases place with
  | «at» here =>
    by_cases hhere : here = i
    · simp [beginStream, ReadPlace.Faces, hhere]
    · simp [beginStream, ReadPlace.Faces, hhere, refuse]
  | drained before =>
    by_cases hdrained : before = i
    · simp [beginStream, hdrained]
    by_cases hbehind : before + 1 = i
    · simp [beginStream, ReadPlace.Faces, hdrained, hbehind]
    · simp [beginStream, ReadPlace.Faces, hdrained, hbehind, refuse]

theorem beginScalar_stops
    (h : (fun _ => ()) <$> beginScalar ⟨protocol, place⟩ i = .error error) :
    error = .protocol (.outOfOrder (call ⟨protocol, place⟩ place.step)
      (call ⟨protocol, place⟩ i)) := by
  cases place with
  | «at» here | drained before =>
    simp only [beginScalar] at h
    split at h <;> cases h
    rfl

theorem beginStream_stops
    (h : (fun _ => ()) <$> beginStream ⟨protocol, place⟩ i = .error error) :
    error = .protocol (.outOfOrder (call ⟨protocol, place⟩ place.step)
      (call ⟨protocol, place⟩ i)) := by
  cases place with
  | «at» here =>
    simp only [beginStream] at h
    split at h <;> cases h
    rfl
  | drained before =>
    simp only [beginStream] at h
    split at h
    · cases h
    · split at h <;> cases h
      rfl

end ReadOrder

-- ---------------------------------------------------------------------------
-- Requests
-- ---------------------------------------------------------------------------

/-- A call of a reader, or the wish to close it. -/
inductive ReadRequest where
  | call (call : ReadCall)
  | close

namespace ReadRequest

def name? (protocol : Protocol) : ReadRequest → Option Call
  | call request => some (.read (protocol.stepLabel request.target))
  | close => some .close

/-- The request suits the protocol: its step is read with such calls, and it asks for something. -/
def Fits (protocol : Protocol) : ReadRequest → Prop
  | call request =>
    request.Roomy ∧ ∃ name, protocol.step? request.target = some ⟨name, request.kind⟩
  | close => True

/-- The order check that the request has to pass. -/
def check (order : ReadOrder) : ReadRequest → Except Error Unit
  | call request =>
    match request.kind with
    | .scalar => (fun _ => ()) <$> order.beginScalar request.target
    | .stream => (fun _ => ()) <$> order.beginStream request.target
  | close => order.checkClose

/-- The reader refuses the request, whatever decoder it brings, and is as before. -/
def Refused (r : Reader InputStream) (error : Error) : ReadRequest → Prop
  | call request => r.Refuses request error
  | close => r.close = .error error r

theorem check_call_ok {protocol : Protocol} {place : ReadPlace} {request : ReadCall} :
    (call request).check ⟨protocol, place⟩ = .ok () ↔ place.Faces request.target ∨
      (request.kind = .stream ∧ place = .drained request.target) := by
  cases hkind : request.kind with
  | scalar => simpa [check, hkind] using ReadOrder.beginScalar_passes
  | stream => simpa [check, hkind] using ReadOrder.beginStream_passes

theorem check_call_error {protocol : Protocol} {place : ReadPlace} {request : ReadCall}
    {error : Error} (h : (call request).check ⟨protocol, place⟩ = .error error) :
    error = .protocol (.outOfOrder (ReadOrder.call ⟨protocol, place⟩ place.step)
      (ReadOrder.call ⟨protocol, place⟩ request.target)) := by
  cases hkind : request.kind with
  | scalar => exact ReadOrder.beginScalar_stops (by simpa only [check, hkind] using h)
  | stream => exact ReadOrder.beginStream_stops (by simpa only [check, hkind] using h)

end ReadRequest

namespace Reader

variable {r r' : Reader InputStream} {protocol : Protocol} {i : Nat}

-- ---------------------------------------------------------------------------
-- What a reader refuses
-- ---------------------------------------------------------------------------

theorem beginScalar_stopped {error : Error}
    (h : (fun _ => ()) <$> r.order.beginScalar i = .error error) :
    beginScalar i r = .error error r := by
  unfold beginScalar
  cases hbegin : r.order.beginScalar i with
  | ok order =>
    rw [hbegin] at h
    cases h
  | error found =>
    rw [hbegin] at h
    cases h
    rfl

theorem beginStream_stopped {error : Error}
    (h : (fun _ => ()) <$> r.order.beginStream i = .error error) :
    beginStream i r = .error error r := by
  unfold beginStream
  cases hbegin : r.order.beginStream i with
  | ok begun =>
    rw [hbegin] at h
    cases h
  | error found =>
    rw [hbegin] at h
    cases h
    rfl

/-- A call that does not pass the order check changes nothing. -/
theorem refuses_stopped (hp : r.order.protocol = protocol) {call : ReadCall}
    (hfits : (ReadRequest.call call).Fits protocol) {error : Error}
    (hstop : (ReadRequest.call call).check r.order = .error error) : r.Refuses call error := by
  obtain ⟨hroomy, name, hstep⟩ := hfits
  intro decoder
  cases call with
  | step type _ i =>
    refine map_error (bind_error.mpr (.inr ⟨(), r, authorize_run hp hstep, ?_⟩))
    exact bind_error.mpr (.inl (beginScalar_stopped hstop))
  | item type _ i =>
    refine map_error (bind_error.mpr (.inr ⟨(), r, authorize_run hp hstep, ?_⟩))
    exact bind_error.mpr (.inl (beginStream_stopped hstop))
  | items type _ i max seed =>
    have hallowed : authorize i .stream r = .ok () r := authorize_run hp hstep
    have hstopped : beginStream i r = .error error r := beginStream_stopped hstop
    refine items_error ?_
    simp only [readItems, if_neg (Nat.one_le_iff_ne_zero.mp hroomy), hallowed, hstopped]

/-- A call that does not suit the protocol is refused for that. -/
theorem answer_unfit (hp : r.order.protocol = protocol) {call : ReadCall}
    (hunfit : ¬ (ReadRequest.call call).Fits protocol) :
    ∃ error : Error, error.InTurn ∧ answer call r = .error error r := by
  by_cases hroomy : call.Roomy
  · obtain ⟨refusal, hturn, hmissing⟩ :=
      authorize_refused hp fun hstep => hunfit ⟨hroomy, hstep⟩
    refine ⟨.protocol refusal, hturn, ?_⟩
    cases call with
    | step | item => exact map_error (bind_error.mpr (.inl hmissing))
    | items type decoder i max seed =>
      have hmissing : authorize i .stream r = .error (.protocol refusal) r := hmissing
      refine items_error ?_
      simp only [readItems, if_neg (Nat.one_le_iff_ne_zero.mp hroomy), hmissing]
  · refine ⟨.zeroCapacity, Error.inTurn_zeroCapacity, ?_⟩
    cases call with
    | step | item => exact absurd trivial hroomy
    | items type decoder i max seed =>
      obtain rfl : max = 0 := Nat.eq_zero_of_not_pos hroomy
      exact items_error (by rw [readItems, if_pos rfl])

/-- Out of order is what the order check finds so. The caller's own decoder may say the same, but
only where the call is in order. -/
theorem InOrder.answer_outOfOrder (h : r.InOrder protocol) {call : ReadCall}
    {expected attempted : Call}
    (hrun : answer call r = .error (.protocol (.outOfOrder expected attempted)) r') :
    ((ReadRequest.call call).Fits protocol ∧ (ReadRequest.call call).check r.order =
      .error (.protocol (.outOfOrder expected attempted))) ∨
    call.decoder.Raises (.protocol (.outOfOrder expected attempted)) := by
  have hp : r.order.protocol = protocol := congrArg _ h.order_eq
  by_cases hfits : (ReadRequest.call call).Fits protocol
  · cases hcheck : (ReadRequest.call call).check r.order with
    | ok found =>
      rw [h.order_eq] at hcheck
      have hends := answer_admitted h
        (admitted_of_place hfits.1 hfits.2 (ReadRequest.check_call_ok.mp hcheck))
      rw [hrun] at hends
      refine .inr (hends.2.resolve_left ?_)
      nofun
    | error error =>
      have hstopped := refuses_stopped hp hfits hcheck call.decoder
      rw [ReadCall.withDecoder_self] at hstopped
      cases hstopped.symm.trans hrun
      exact .inl ⟨hfits, rfl⟩
  · obtain ⟨error, herror, hunfit⟩ := answer_unfit hp hfits
    cases hunfit.symm.trans hrun
    exact absurd rfl (herror expected attempted)

theorem verifyFinished_inTurn {s s' : InputStream} {error : Error}
    (h : verifyFinished s = .error error s') : error.InTurn := by
  rcases bind_error.mp h with hend | ⟨ended, t, -, hrest⟩
  · exact Error.inTurn_of_fatal (InputStream.atEnd_error hend)
  · cases ended <;> cases hrest
    exact fun _ _ => nofun

theorem close_outOfOrder {expected attempted : Call}
    (hrun : r.close = .error (.protocol (.outOfOrder expected attempted)) r') :
    r.order.checkClose = .error (.protocol (.outOfOrder expected attempted)) := by
  rcases bind_error.mp hrun with hrequire | ⟨_, t, -, hrest⟩
  · unfold require at hrequire
    split at hrequire
    · cases hrequire
    · next error hcheck =>
      cases hrequire
      exact hcheck
  · unfold onInput at hrest
    split at hrest
    · cases hrest
    · next error s hinput =>
      cases hrest
      exact absurd rfl (verifyFinished_inTurn hinput expected attempted)

theorem close_refused {error : Error} (hstop : r.order.checkClose = .error error) :
    r.close = .error error r :=
  bind_error.mpr (.inl (by simp only [require, hstop]))

theorem InOrder.refused_iff (h : r.InOrder protocol) {request : ReadRequest}
    {expected attempted : Call} :
    request.Refused r (.protocol (.outOfOrder expected attempted)) ↔ request.Fits protocol ∧
      request.check r.order = .error (.protocol (.outOfOrder expected attempted)) := by
  cases request with
  | close =>
    exact ⟨fun hrun => ⟨trivial, close_outOfOrder hrun⟩, fun hcheck => close_refused hcheck.2⟩
  | call call =>
    refine ⟨fun hrefuses => ?_,
      fun hstop => refuses_stopped (congrArg _ h.order_eq) hstop.1 hstop.2⟩
    -- The codec of the type never says so itself.
    rcases h.answer_outOfOrder (hrefuses .current) with hstop | hraises
    · cases call <;> exact hstop
    · cases call <;> exact hraises.elim

/-- The order check names the request that it stops. -/
theorem InOrder.check_names (h : r.InOrder protocol) {request : ReadRequest}
    (hfits : request.Fits protocol) {expected attempted : Call}
    (hcheck : request.check r.order = .error (.protocol (.outOfOrder expected attempted))) :
    expected = r.order.call r.order.place.step ∧ request.name? protocol = some attempted ∧
      attempted.single = true := by
  rw [h.order_eq] at hcheck ⊢
  cases request with
  | close =>
    simp only [ReadRequest.check, ReadOrder.checkClose] at hcheck
    split at hcheck
    · cases hcheck
    · cases hcheck
      have hclose : ReadOrder.call ⟨protocol, r.order.place⟩ protocol.stepCount = .close :=
        if_pos rfl
      exact ⟨rfl, by rw [hclose]; rfl, by rw [hclose]; rfl⟩
  | call call =>
    obtain ⟨-, name, hstep⟩ := hfits
    cases ReadRequest.check_call_error hcheck
    have hread : ReadOrder.call ⟨protocol, r.order.place⟩ call.target =
        .read (protocol.stepLabel call.target) :=
      if_neg (Nat.ne_of_lt (Protocol.lt_stepCount hstep))
    exact ⟨rfl, by rw [hread]; rfl, by rw [hread]; rfl⟩

/-- The step at which a reader stands; behind it only if it is a stream. -/
theorem InOrder.place_cases (h : r.InOrder protocol) :
    (∃ i name kind, protocol.step? i = some ⟨name, kind⟩ ∧
      (r.order.place = .at i ∨ (kind = .stream ∧ r.order.place = .drained i))) ∨
    r.order.place = .at protocol.stepCount := by
  cases h with
  | @between i ho hbound =>
    rw [ho]
    rcases Nat.lt_or_eq_of_le hbound with hlt | rfl
    · obtain ⟨⟨name, kind⟩, hstep⟩ := Protocol.exists_step hlt
      exact .inl ⟨i, name, kind, hstep, .inl rfl⟩
    · exact .inr rfl
  | @inside i name ho hstep =>
    rw [ho]
    exact .inl ⟨i, name, .stream, hstep, .inl rfl⟩
  | @drained i name ho hstep =>
    rw [ho]
    exact .inl ⟨i, name, .stream, hstep, .inr ⟨rfl, rfl⟩⟩

theorem InOrder.check_option (h : r.InOrder protocol)
    (hnames : (protocol.steps.map Step.name).Nodup) {option : Call}
    (hmem : option ∈ (r.order.call r.order.place.step).options) :
    (∃ next : ReadRequest, next.Fits protocol ∧ next.name? protocol = some option) ∧
      ∀ next : ReadRequest, next.Fits protocol → next.name? protocol = some option →
        next.check r.order = .ok () := by
  rw [h.order_eq] at hmem ⊢
  rcases h.place_cases with ⟨i, name, kind, hstep, hplace⟩ | hplace
  · have hi := Protocol.lt_stepCount hstep
    have hhere : r.order.place.step = i := by
      rcases hplace with hplace | ⟨-, hplace⟩ <;> rw [hplace] <;> rfl
    obtain rfl : option = .read (protocol.stepLabel i) := by
      simpa [ReadOrder.call, hhere, Nat.ne_of_lt hi, Call.options] using hmem
    refine ⟨?_, fun next hfits hname => ?_⟩
    · cases kind with
      | scalar => exact ⟨.call (.step .unit .current i), ⟨trivial, name, hstep⟩, rfl⟩
      | stream => exact ⟨.call (.item .unit .current i), ⟨trivial, name, hstep⟩, rfl⟩
    · cases next with
      | close => cases hname
      | call call =>
        obtain ⟨-, name', hstep'⟩ := hfits
        simp only [ReadRequest.name?, Option.some.injEq, Call.read.injEq] at hname
        obtain rfl := Protocol.stepLabel_inj hnames (Protocol.lt_stepCount hstep') hi hname
        cases hstep.symm.trans hstep'
        exact ReadRequest.check_call_ok.mpr (hplace.imp .inl id)
  · obtain rfl : option = .close := by
      simpa [ReadOrder.call, hplace, ReadPlace.step, Call.options] using hmem
    refine ⟨⟨.close, trivial, rfl⟩, fun next _ hname => ?_⟩
    cases next with
    | close => exact if_pos (by simp [ReadOrder.complete, hplace])
    | call call => cases hname

/-- Out of order are the requests that suit the protocol and that the order check stops, and no
others, unless the caller's own decoder says so. Each refusal leaves the reader as it was and is a
guide. -/
structure Guided (r : Reader InputStream) (protocol : Protocol) : Prop where
  refused_iff : ∀ {request : ReadRequest} {expected attempted : Call},
    request.Refused r (.protocol (.outOfOrder expected attempted)) ↔ request.Fits protocol ∧
      request.check r.order = .error (.protocol (.outOfOrder expected attempted))
  refused_call : ∀ {call : ReadCall} {expected attempted : Call} {r' : Reader InputStream},
    answer call r = .error (.protocol (.outOfOrder expected attempted)) r' →
      r.Refuses call (.protocol (.outOfOrder expected attempted)) ∨
        call.decoder.Raises (.protocol (.outOfOrder expected attempted))
  refused_close : ∀ {expected attempted : Call} {r' : Reader InputStream},
    r.close = .error (.protocol (.outOfOrder expected attempted)) r' → r' = r
  guides : ∀ {request : ReadRequest} {expected attempted : Call},
    request.Refused r (.protocol (.outOfOrder expected attempted)) →
      Call.Guides (ReadRequest.name? protocol) (ReadRequest.Fits protocol)
        (fun next => next.check r.order = .ok ()) request expected attempted

theorem InOrder.guided (h : r.InOrder protocol) (hnames : (protocol.steps.map Step.name).Nodup) :
    r.Guided protocol where
  refused_iff := h.refused_iff
  refused_call hrun := (h.answer_outOfOrder hrun).imp_left h.refused_iff.mpr
  refused_close hrun := by
    cases (close_refused (close_outOfOrder hrun)).symm.trans hrun
    rfl
  guides {request expected attempted} hrefused := by
    obtain ⟨hfits, hcheck⟩ := h.refused_iff.mp hrefused
    obtain ⟨rfl, hname, hsingle⟩ := h.check_names hfits hcheck
    refine Call.guides hname hsingle hfits ?_ (fun _ => id) fun option => h.check_option hnames
    rw [hcheck]
    nofun

-- ---------------------------------------------------------------------------
-- Readers that seek
-- ---------------------------------------------------------------------------

theorem InOrder.with_input (h : r.InOrder protocol) (input : InputStream) :
    InOrder { r with input } protocol := by
  cases h with
  | between ho hbound hrem => exact .between ho hbound hrem
  | inside ho hstep => exact .inside ho hstep
  | drained ho hstep hrem => exact .drained ho hstep hrem

end Reader

namespace IndexedReader

variable {r r' : IndexedReader InputStream} {protocol : Protocol} {step : Nat}

theorem stepName_inv {name : String} (h : r.stepName step = .ok name) :
    ∃ kind, r.reader.order.protocol.step? step = some ⟨name, kind⟩ := by
  dsimp only [stepName] at h
  split at h
  · next found hstep =>
    cases h
    exact ⟨found.kind, hstep⟩
  · cases h

theorem streamName_inv {name : String} (h : r.streamName step = .ok name) :
    r.reader.order.protocol.step? step = some ⟨name, .stream⟩ := by
  rcases r.reader.order.protocol.stepOfKind_cases step .stream with
    ⟨name', hstep, hfound⟩ | ⟨-, error, -, hmissing⟩
  · simp only [streamName, hfound] at h
    cases h
    exact hstep
  · simp only [streamName, hmissing] at h
    cases h

theorem open_inOrder {input : InputStream} (h : IndexedReader.open protocol input = .ok r) :
    r.reader.InOrder protocol := by
  unfold IndexedReader.open at h
  split at h
  · cases h
  · next reader hopen =>
    unfold Reader.onInput at h
    cases hload : StreamIndex.load reader.input with
    | error error input =>
      simp only [hload] at h
      cases h
    | ok index input =>
      simp only [hload] at h
      cases h
      exact (Reader.open_inOrder hopen).with_input input

/-- A jump that fails leaves the reader where it was. -/
theorem jump_failed_inOrder (hr : r.reader.InOrder protocol) {offset remaining : Nat}
    {error : Error} (h : jump offset step remaining r = .error error r') :
    r'.reader.InOrder protocol := by
  obtain ⟨input, -, rfl⟩ := jump_failed h
  exact hr.with_input input

theorem seekStep_inOrder (hr : r.reader.InOrder protocol) (step : Nat) :
    Ends (fun r' => r'.reader.InOrder protocol) (fun _ => True) (seekStep step r) := by
  cases hrun : seekStep step r with
  | ok _ r' =>
    obtain ⟨offset, htarget, hjump⟩ := seekStep_ok hrun
    obtain ⟨name, hname, -⟩ := stepTarget_inv htarget
    obtain ⟨place, input, -, rfl⟩ := jump_inv hjump
    obtain ⟨kind, hstep⟩ := stepName_inv hname
    rw [hr.order_eq] at hstep
    refine .between ?_ (Nat.le_of_lt (Protocol.lt_stepCount hstep)) rfl
    rw [hr.order_eq]
    rfl
  | error error r' =>
    rcases seekStep_failed hrun with rfl | ⟨offset, -, hjump⟩
    · exact ⟨hr, trivial⟩
    · exact ⟨jump_failed_inOrder hr hjump, trivial⟩

theorem seekItem_inOrder (hr : r.reader.InOrder protocol) (step item : Nat) :
    Ends (fun r' => r'.reader.InOrder protocol) (fun _ => True) (seekItem step item r) := by
  cases hrun : seekItem step item r with
  | ok found r' =>
    rcases seekItem_ok hrun with ⟨-, -, rfl⟩ | ⟨location, -, htarget, hjump⟩
    · exact hr
    · obtain ⟨name, hname, -⟩ := itemTarget_inv htarget
      obtain ⟨place, input, -, rfl⟩ := jump_inv hjump
      have hstep := streamName_inv hname
      rw [hr.order_eq] at hstep
      refine .inside ?_ hstep
      rw [hr.order_eq]
      rfl
  | error error r' =>
    rcases seekItem_failed hrun with rfl | ⟨location, -, hjump⟩
    · exact ⟨hr, trivial⟩
    · exact ⟨jump_failed_inOrder hr hjump, trivial⟩

end IndexedReader

namespace IndexedCall

variable {r : IndexedReader InputStream} {protocol : Protocol}

theorem reply_inOrder (hr : r.reader.InOrder protocol) (call : IndexedCall) :
    (call.reply r).2.reader.InOrder protocol := by
  cases call with
  | read call => exact (Reader.answer_leads hr call).inOrder
  | seekStep step =>
    have hends := IndexedReader.seekStep_inOrder hr step
    cases hrun : IndexedReader.seekStep step r with
    | ok _ r' =>
      rw [hrun] at hends
      simp only [reply, hrun]
      exact hends
    | error error r' =>
      rw [hrun] at hends
      simp only [reply, hrun]
      exact hends.1
  | seekItem step item =>
    have hends := IndexedReader.seekItem_inOrder hr step item
    cases hrun : IndexedReader.seekItem step item r with
    | ok found r' =>
      rw [hrun] at hends
      simp only [reply, hrun]
      exact hends
    | error error r' =>
      rw [hrun] at hends
      simp only [reply, hrun]
      exact hends.1

theorem after_inOrder (hr : r.reader.InOrder protocol) (calls : List IndexedCall) :
    (after calls r).reader.InOrder protocol := by
  induction calls generalizing r with
  | nil => exact hr
  | cons call calls ih => exact ih (reply_inOrder hr call)

end IndexedCall

-- ---------------------------------------------------------------------------
-- Refusals as guides
-- ---------------------------------------------------------------------------

namespace Ticks

theorem order_written :
    ∃ w₀, Writer.open protocol {} 0 = .ok w₀ ∧
      (Writer.attempts [.step .bool 0 (.bool true)] w₀).2.order = ⟨protocol, 1⟩ := by
  have hplace : (match Writer.open protocol {} 0 with
      | .error _ => none
      | .ok w₀ =>
        let w := (Writer.attempts [.step .bool 0 (.bool true)] w₀).2
        some (w.order.protocol, w.order.next)) = some (protocol, 1) := by decide +kernel
  cases hopen : Writer.open protocol {} 0 with
  | error found => simp only [hopen, reduceCtorEq] at hplace
  | ok w₀ =>
    simp only [hopen, Option.some.injEq, Prod.mk.injEq] at hplace
    exact ⟨w₀, rfl, by rw [← hplace.2, ← hplace.1]⟩

/-- A batch with room for more than there is finds the end of the ticks. -/
theorem order_drained :
    ∃ r₀, Reader.open protocol (InputStream.open
        (.ofBytes (Header.bytes protocol.schema ++ [1, 1, 0])) 64 0) = .ok r₀ ∧
      (Reader.after [.step .bool .current 0, .items .unit .current 1 5 []] r₀).order =
        ⟨protocol, .drained 1⟩ := by
  have hplace : (match Reader.open protocol (InputStream.open
        (.ofBytes (Header.bytes protocol.schema ++ [1, 1, 0])) 64 0) with
      | .error _ => none
      | .ok r₀ =>
        let r := Reader.after [.step .bool .current 0, .items .unit .current 1 5 []] r₀
        some (r.order.protocol, r.order.place)) = some (protocol, .drained 1) := by decide +kernel
  cases hopen : Reader.open protocol (InputStream.open
      (.ofBytes (Header.bytes protocol.schema ++ [1, 1, 0])) 64 0) with
  | error found => simp only [hopen, reduceCtorEq] at hplace
  | ok r₀ =>
    simp only [hopen, Option.some.injEq, Prod.mk.injEq] at hplace
    exact ⟨r₀, rfl, by rw [← hplace.2, ← hplace.1]⟩

theorem order_sought :
    ∃ w₀ w r₀, Writer.openIndexed protocol {} 0 = .ok w₀ ∧
      Writer.runCalls calls w₀ = .ok () w ∧
      IndexedReader.open protocol
        (InputStream.open { content := w.close.2.bytes.toArray } 64 0) = .ok r₀ ∧
      (IndexedCall.after [.seekItem 1 2] r₀).reader.order = ⟨protocol, .at 1⟩ := by
  have hplace : (match Writer.openIndexed protocol {} 0 with
      | .error _ => none
      | .ok w₀ =>
        match Writer.runCalls calls w₀ with
        | .error .. => none
        | .ok _ w =>
          match IndexedReader.open protocol
            (InputStream.open { content := w.close.2.bytes.toArray } 64 0) with
          | .error _ => none
          | .ok r₀ =>
            let r := (IndexedCall.after [.seekItem 1 2] r₀).reader
            some (r.order.protocol, r.order.place)) = some (protocol, .at 1) := by
    decide +kernel
  cases hopen : Writer.openIndexed protocol {} 0 with
  | error found => simp only [hopen, reduceCtorEq] at hplace
  | ok w₀ =>
  cases hwrite : Writer.runCalls calls w₀ with
  | error found w => simp only [hopen, hwrite, reduceCtorEq] at hplace
  | ok _ w =>
  cases hread : IndexedReader.open protocol
    (InputStream.open { content := w.close.2.bytes.toArray } 64 0) with
  | error found => simp only [hopen, hwrite, hread, reduceCtorEq] at hplace
  | ok r₀ =>
  simp only [hopen, hwrite, hread, Option.some.injEq, Prod.mk.injEq] at hplace
  exact ⟨w₀, w, r₀, rfl, hwrite, hread, by rw [← hplace.2, ← hplace.1]⟩

end Ticks

/-- If the steps of a protocol have different names, a caller who is told that a call was out of
order can go by the message. It names the call that has been made, and another one or two of which
each is in order now: wherever calls, refused or not, have taken a writer or a reader. -/
theorem refusals_guide {protocol : Protocol} (hnames : (protocol.steps.map Step.name).Nodup) :
    (∀ (sink : Sink) (bufferSize : Nat) (w₀ : Writer),
      Writer.open protocol sink bufferSize = .ok w₀ ∨
        Writer.openIndexed protocol sink bufferSize = .ok w₀ →
      ∀ calls, (Writer.attempts calls w₀).2.Guided protocol) ∧
    (∀ (input : InputStream) (r₀ : Reader InputStream), Reader.open protocol input = .ok r₀ →
      ∀ calls, (Reader.after calls r₀).Guided protocol) ∧
    (∀ (input : InputStream) (r₀ : IndexedReader InputStream),
      IndexedReader.open protocol input = .ok r₀ →
      ∀ calls, (IndexedCall.after calls r₀).reader.Guided protocol) := by
  refine ⟨fun sink bufferSize w₀ hopen calls => ?_, fun input r₀ hopen calls => ?_,
    fun input r₀ hopen calls => ?_⟩
  · have hstart : w₀.InOrder protocol :=
      hopen.elim Writer.open_inOrder Writer.openIndexed_inOrder
    exact (Writer.inOrder_attempts hstart calls).guided hnames
  · exact (Reader.after_leads (Reader.open_inOrder hopen) calls).inOrder.guided hnames
  · exact (IndexedCall.after_inOrder (IndexedReader.open_inOrder hopen) calls).guided hnames

/-- The end of the counts cannot be written before that of the ticks. A reader that has all ticks in
a batch cannot be closed; it has not been told of their end and may ask for one more. Where a seek
has led to the ticks, the label is out of order. -/
theorem refusals_guide_ticks :
    (∃ w₀ w, Writer.open Ticks.protocol {} 0 = .ok w₀ ∧
      w = (Writer.attempts [.step .bool 0 (.bool true)] w₀).2 ∧
      (WriteRequest.call (.endStream 2)).Refused w
        (.protocol (.outOfOrder (.writeOrFinish "ticks") (.finish "counts"))) ∧
      (WriteRequest.call (.endStream 1)).check w.order = .ok ()) ∧
    (∃ r₀ r, Reader.open Ticks.protocol (InputStream.open
        (.ofBytes (Header.bytes Ticks.protocol.schema ++ [1, 1, 0])) 64 0) = .ok r₀ ∧
      r = Reader.after [.step .bool .current 0, .items .unit .current 1 5 []] r₀ ∧
      ReadRequest.close.Refused r (.protocol (.outOfOrder (.read "ticks") .close)) ∧
      (ReadRequest.call (.item .unit .current 1)).check r.order = .ok ()) ∧
    ∃ w₀ w r₀ r, Writer.openIndexed Ticks.protocol {} 0 = .ok w₀ ∧
      Writer.runCalls Ticks.calls w₀ = .ok () w ∧
      IndexedReader.open Ticks.protocol
        (InputStream.open { content := w.close.2.bytes.toArray } 64 0) = .ok r₀ ∧
      r = (IndexedCall.after [.seekItem 1 2] r₀).reader ∧
      (ReadRequest.call (.step .bool .current 0)).Refused r
        (.protocol (.outOfOrder (.read "ticks") (.read "label"))) ∧
      (ReadRequest.call (.item .unit .current 1)).check r.order = .ok () := by
  obtain ⟨hwriters, hreaders, hindexed⟩ := @refusals_guide Ticks.protocol (by decide)
  refine ⟨?_, ?_, ?_⟩
  · obtain ⟨w₀, hopen, horder⟩ := Ticks.order_written
    have hguided := hwriters {} 0 w₀ (.inl hopen) [.step .bool 0 (.bool true)]
    have hrefused : (WriteRequest.call (.endStream 2)).Refused _
        (.protocol (.outOfOrder (.writeOrFinish "ticks") (.finish "counts"))) :=
      hguided.refused_iff.mpr (by rw [horder]; rfl)
    have hon : (WriteRequest.call (.endStream 2)).OnStep Ticks.protocol := show 2 < 3 by decide
    exact ⟨w₀, _, hopen, rfl, hrefused, (hguided.guides hon hrefused).passes_named
      (.finish "ticks") (by decide) (.call (.endStream 1)) ⟨"ticks", rfl⟩ rfl⟩
  · obtain ⟨r₀, hopen, horder⟩ := Ticks.order_drained
    have hguided := hreaders _ r₀ hopen [.step .bool .current 0, .items .unit .current 1 5 []]
    have hrefused : ReadRequest.close.Refused _
        (.protocol (.outOfOrder (.read "ticks") .close)) :=
      hguided.refused_iff.mpr ⟨trivial, by rw [horder]; rfl⟩
    exact ⟨r₀, _, hopen, rfl, hrefused, (hguided.guides hrefused).passes_named (.read "ticks")
      (by decide) (.call (.item .unit .current 1)) ⟨trivial, "ticks", rfl⟩ rfl⟩
  · obtain ⟨w₀, w, r₀, hopen, hwrite, hread, horder⟩ := Ticks.order_sought
    have hguided := hindexed _ r₀ hread [.seekItem 1 2]
    have hrefused : (ReadRequest.call (.step .bool .current 0)).Refused _
        (.protocol (.outOfOrder (.read "ticks") (.read "label"))) :=
      hguided.refused_iff.mpr ⟨⟨trivial, "label", rfl⟩, by rw [horder]; rfl⟩
    exact ⟨w₀, w, r₀, _, hopen, hwrite, hread, rfl, hrefused,
      (hguided.guides hrefused).passes_named (.read "ticks") (by decide)
        (.call (.item .unit .current 1)) ⟨trivial, "ticks", rfl⟩ rfl⟩

end TypedStream
