import TypedStream.Proofs.Delivery
import TypedStream.Proofs.Input.Alike

/-!
# Readers of inputs that deliver alike

A reader sees of its input only what it delivers. Two readers that stand at one place, on inputs
that deliver alike, answer every call alike and then stand at one place again
(`Reader.reply_like`), whether the call succeeds or fails.
-/

namespace TypedStream

-- ---------------------------------------------------------------------------
-- Readers
-- ---------------------------------------------------------------------------

theorem ReadOrder.protocol_of_beginScalar {order order' : ReadOrder} {step : Nat}
    (h : order.beginScalar step = .ok order') : order'.protocol = order.protocol := by
  unfold beginScalar at h
  split at h <;> split at h <;> cases h
  all_goals rfl

theorem ReadOrder.protocol_of_beginStream {order order' : ReadOrder} {step : Nat}
    {turn : StreamRead} (h : order.beginStream step = .ok (turn, order')) :
    order'.protocol = order.protocol := by
  unfold beginStream at h
  split at h
  · split at h <;> cases h
    rfl
  · split at h
    · cases h
      rfl
    · split at h <;> cases h
      rfl

namespace Reader

variable {σ : Type}

structure Like (I : σ → σ → Prop) (protocol : Protocol) (version : Nat) (r r' : Reader σ) :
    Prop where
  order : r.order = r'.order
  protocol_eq : r.order.protocol = protocol
  version_left : r.version = version
  version_right : r'.version = version
  remaining : r.remaining = r'.remaining
  input : I r.input r'.input

section
variable {I J : σ → σ → Prop} {protocol : Protocol} {version : Nat} {r r' : Reader σ}

theorem Like.protocol_right (h : r.Like I protocol version r') : r'.order.protocol = protocol := by
  rw [← h.order, h.protocol_eq]

theorem Like.mono (h : r.Like I protocol version r') (hIJ : ∀ {s t}, I s t → J s t) :
    r.Like J protocol version r' := { h with input := hIJ h.input }

theorem Like.with_input (h : r.Like I protocol version r') {s t : σ} (hinput : J s t) :
    Like J protocol version { r with input := s } { r' with input := t } :=
  { h with input := hinput }

theorem Like.with_order (h : r.Like I protocol version r') {order : ReadOrder}
    (ho : order.protocol = protocol) :
    Like I protocol version { r with order } { r' with order } :=
  { h with order := rfl, protocol_eq := ho }

theorem Like.with_remaining (h : r.Like I protocol version r') (remaining : Nat) :
    Like I protocol version { r with remaining } { r' with remaining } :=
  { h with remaining := rfl }

end

def Agrees (I J : σ → σ → Prop) (protocol : Protocol) (version : Nat)
    (act : EStateM Error (Reader σ) α) : Prop :=
  Relates (Like I protocol version) (Like J protocol version) act act

variable {I J : σ → σ → Prop} {protocol : Protocol} {version : Nat}

theorem onInput_agrees {act : EStateM Error σ α} (hact : Relates I J act act) :
    Agrees I J protocol version (onInput act) := by
  intro r r' hr
  rcases hact r.input r'.input hr.input with ⟨a, s, t, hs, ht, hrel⟩ | ⟨e, s, t, hs, ht, hrel⟩
  · simp only [onInput, hs, ht]
    exact .of_ok (hr.with_input hrel) a
  · simp only [onInput, hs, ht]
    exact .of_error (hr.with_input hrel) e

section
variable [ByteInput σ] (h : Congruent I J)
include h

theorem authorize_agrees (step : Nat) (kind : StepKind) :
    Agrees (σ := σ) I J protocol version (authorize step kind) := by
  intro r r' hr
  simp only [authorize, require, hr.order]
  split
  · exact .of_ok hr ()
  · exact .of_error (hr.mono h.weaken) _

theorem beginScalar_agrees (step : Nat) :
    Agrees (σ := σ) I J protocol version (beginScalar step) := by
  intro r r' hr
  simp only [beginScalar, hr.order]
  split
  · next order ho =>
    have hp := ReadOrder.protocol_of_beginScalar ho
    exact .of_ok (hr.with_order (hp.trans hr.protocol_right)) ()
  · exact .of_error (hr.mono h.weaken) _

theorem beginStream_agrees (step : Nat) :
    Agrees (σ := σ) I J protocol version (beginStream step) := by
  intro r r' hr
  simp only [beginStream, hr.order]
  split
  · next turn order ho =>
    have hp := ReadOrder.protocol_of_beginStream ho
    exact .of_ok (hr.with_order (hp.trans hr.protocol_right)) turn
  · exact .of_error (hr.mono h.weaken) _

theorem readStep_agrees (codec : Codec α) (decoder : StepDecoder α) (step : Nat) :
    Agrees (σ := σ) I J protocol version (readStep codec decoder step) := by
  refine (authorize_agrees h step .scalar).bind fun _ => ?_
  refine (beginScalar_agrees h step).bind fun _ => ?_
  refine (onInput_agrees (h.exec (decoder.one codec))).bind fun value => ?_
  refine .bind (.modify fun {r r'} hr => ?_) fun _ => .pure value
  rw [hr.order]
  exact hr.with_order hr.protocol_right

theorem nextBlock_agrees : Agrees (σ := σ) I J protocol version nextBlock := by
  intro r r' hr
  rcases h.tryVarint r.input r'.input hr.input with ⟨count, s, t, hs, ht, hrel⟩ |
    ⟨e, s, t, hs, ht, hrel⟩
  · simp only [nextBlock, hs, ht]
    exact .of_ok ((hr.with_input hrel).with_remaining _) ()
  · simp only [nextBlock, hs, ht]
    exact .of_error (hr.with_input hrel) e

theorem ensureBlock_agrees : Agrees (σ := σ) I J protocol version ensureBlock := by
  intro r r' hr
  simp only [ensureBlock, hr.remaining]
  split
  · exact nextBlock_agrees h r r' hr
  · exact .of_ok hr ()

theorem takeItem_agrees (codec : Codec α) (decoder : StepDecoder α) (step : Nat) :
    Agrees (σ := σ) I J protocol version (takeItem codec decoder step) := by
  intro r r' hr
  simp only [takeItem, hr.remaining]
  split
  · rw [hr.order]
    have hfinish : (r'.order.finish step).protocol = protocol := hr.protocol_right
    exact .of_ok ((hr.with_remaining r'.remaining).with_order hfinish) none
  · rcases onInput_agrees (h.exec (decoder.one codec)) r r' hr with ⟨item, s, t, hs, ht, hrel⟩ |
      ⟨e, s, t, hs, ht, hrel⟩
    · simp only [hs, ht, hrel.remaining]
      exact .of_ok (hrel.with_remaining _) (some item)
    · simp only [hs, ht]
      exact .of_error hrel e

theorem readItem_agrees (codec : Codec α) (decoder : StepDecoder α) (step : Nat) :
    Agrees (σ := σ) I J protocol version (readItem codec decoder step) := by
  refine (authorize_agrees h step .stream).bind fun _ => ?_
  refine (beginStream_agrees h step).bind fun turn => ?_
  cases turn with
  | finished => exact .pure none
  | proceed => exact (ensureBlock_agrees h).bind fun _ => takeItem_agrees h codec decoder step

theorem fillItems_related (codec : Codec α) (decoder : StepDecoder α) (room : Nat)
    (found : List α) {r r' : Reader σ} (hr : r.Like I protocol version r') :
    Related (Like I protocol version) (Like J protocol version)
        (fillItems codec decoder room found r).1 (fillItems codec decoder room found r').1 ∧
      (fillItems codec decoder room found r).2 = (fillItems codec decoder room found r').2 := by
  induction room using Nat.strongRecOn generalizing found r r' with
  | ind room ih =>
    unfold fillItems
    rw [hr.remaining]
    split
    · exact ⟨.of_ok hr (), rfl⟩
    next hgo =>
    have hmany := h.exec (decoder.many codec (min r'.remaining room))
    rcases onInput_agrees hmany r r' hr with ⟨items, s, t, hs, ht, hrel⟩ | ⟨e, s, t, hs, ht, hrel⟩
    · dsimp only
      rw [hs, ht]
      dsimp only
      rw [hrel.remaining]
      have hrest := hrel.with_remaining (t.remaining - min r'.remaining room)
      rcases ensureBlock_agrees h _ _ hrest with
        ⟨⟨⟩, s', t', hs', ht', hrel'⟩ | ⟨e, s', t', hs', ht', hrel'⟩
      · rw [hs', ht']
        exact ih _ (by omega) _ hrel'
      · rw [hs', ht']
        exact ⟨.of_error hrel' e, rfl⟩
    · dsimp only
      rw [hs, ht]
      exact ⟨.of_error hrel e, rfl⟩

omit [ByteInput σ] h in
theorem endBatch_like (step : Nat) (items : List α) {r r' : Reader σ}
    (hr : r.Like I protocol version r') :
    (endBatch step items r).1 = (endBatch step items r').1 ∧
      (endBatch step items r).2.Like I protocol version (endBatch step items r').2 := by
  simp only [endBatch, hr.remaining]
  split
  · have hdrain : (r'.order.drain step).protocol = protocol := hr.protocol_right
    rw [hr.order]
    exact ⟨rfl, (hr.with_remaining r'.remaining).with_order hdrain⟩
  · exact ⟨rfl, hr⟩

theorem readItems_related (codec : Codec α) (decoder : StepDecoder α) (step max : Nat)
    (seed : List α) {r r' : Reader σ} (hr : r.Like I protocol version r') :
    Related (Like I protocol version) (Like J protocol version)
        (readItems codec decoder step max seed r).1 (readItems codec decoder step max seed r').1 ∧
      (readItems codec decoder step max seed r).2 =
        (readItems codec decoder step max seed r').2 := by
  unfold readItems
  split
  · exact ⟨.of_error (hr.mono h.weaken) _, rfl⟩
  rcases authorize_agrees h step .stream r r' hr with ⟨⟨⟩, s, t, hs, ht, hst⟩ |
    ⟨e, s, t, hs, ht, hst⟩
  · rw [hs, ht]
    dsimp only
    rcases beginStream_agrees h step s t hst with ⟨turn, s₁, t₁, hs₁, ht₁, hst₁⟩ |
      ⟨e, s₁, t₁, hs₁, ht₁, hst₁⟩
    · rw [hs₁, ht₁]
      cases turn with
      | finished => exact ⟨.of_ok hst₁ false, rfl⟩
      | proceed =>
        dsimp only
        rcases ensureBlock_agrees h s₁ t₁ hst₁ with ⟨⟨⟩, s₂, t₂, hs₂, ht₂, hst₂⟩ |
          ⟨e, s₂, t₂, hs₂, ht₂, hst₂⟩
        · rw [hs₂, ht₂]
          dsimp only
          obtain ⟨hfill, hitems⟩ := fillItems_related h codec decoder max [] hst₂
          generalize fillItems codec decoder max [] s₂ = x at hfill hitems
          generalize fillItems codec decoder max [] t₂ = y at hfill hitems
          obtain ⟨x, items⟩ := x
          obtain ⟨y, items'⟩ := y
          obtain rfl : items = items' := hitems
          rcases hfill with ⟨⟨⟩, s₃, t₃, rfl, rfl, hst₃⟩ | ⟨e, s₃, t₃, rfl, rfl, hst₃⟩
          · obtain ⟨hmore, hlike⟩ := endBatch_like step items hst₃
            dsimp only
            rw [hmore]
            exact ⟨.of_ok hlike _, rfl⟩
          · exact ⟨.of_error hst₃ e, rfl⟩
        · rw [hs₂, ht₂]
          exact ⟨.of_error hst₂ e, rfl⟩
    · rw [hs₁, ht₁]
      exact ⟨.of_error hst₁ e, rfl⟩
  · rw [hs, ht]
    exact ⟨.of_error hst e, rfl⟩

theorem answer_agrees (call : ReadCall) : Agrees (σ := σ) I J protocol version (answer call) := by
  cases call with
  | step type decoder step => exact (readStep_agrees h type.codec decoder step).map Answer.value
  | item type decoder step => exact (readItem_agrees h type.codec decoder step).map Answer.item
  | items type decoder step max seed =>
    intro r r' hr
    obtain ⟨hresult, hitems⟩ := readItems_related h type.codec decoder step max seed hr
    simp only [answer]
    generalize readItems type.codec decoder step max seed r = x at hresult hitems
    generalize readItems type.codec decoder step max seed r' = y at hresult hitems
    obtain ⟨x, items⟩ := x
    obtain ⟨y, items'⟩ := y
    obtain rfl : items = items' := hitems
    rcases hresult with ⟨more, s, t, rfl, rfl, hst⟩ | ⟨e, s, t, rfl, rfl, hst⟩
    · exact .of_ok hst _
    · exact .of_error hst e

end

-- ---------------------------------------------------------------------------
-- What calls keep
-- ---------------------------------------------------------------------------

section
variable [ByteInput σ] {P : σ → Prop}

/-- An input is like itself, and requests that succeed may keep something of it. -/
theorem congruent_self
    (take : ∀ {s t count bytes}, P s → ByteInput.take count s = .ok bytes t → P t)
    (atEnd : ∀ {s t ended}, P s → ByteInput.atEnd s = .ok ended t → P t) :
    Congruent (fun s t => s = t ∧ P s) (fun _ _ => True) where
  take := by
    rintro count s _ ⟨rfl, hs⟩
    cases htake : ByteInput.take count s with
    | ok bytes t => exact .of_ok ⟨rfl, take hs htake⟩ bytes
    | error error t => exact .of_error trivial error
  atEnd := by
    rintro s _ ⟨rfl, hs⟩
    cases hend : ByteInput.atEnd s with
    | ok ended t => exact .of_ok ⟨rfl, atEnd hs hend⟩ ended
    | error error t => exact .of_error trivial error
  weaken _ := trivial

theorem answer_keeps (h : Congruent (fun s t => s = t ∧ P s) (fun _ _ => True)) {call : ReadCall}
    {r r' : Reader σ} {found : Answer} (hinput : P r.input) (hrun : answer call r = .ok found r') :
    r'.order.protocol = r.order.protocol ∧ r'.version = r.version ∧ P r'.input := by
  have hlike : r.Like (fun s t => s = t ∧ P s) r.order.protocol r.version r :=
    ⟨rfl, rfl, rfl, rfl, rfl, rfl, hinput⟩
  have hcall := answer_agrees h call r r hlike
  rw [hrun] at hcall
  rcases hcall with ⟨_, s, t, hs, -, hst⟩ | ⟨_, s, t, hs, -⟩
  · cases hs
    exact ⟨hst.protocol_eq, hst.version_left, hst.input.2⟩
  · cases hs

end

end Reader

-- ---------------------------------------------------------------------------
-- Replies
-- ---------------------------------------------------------------------------

/-- What a call comes to. A call that fails says also what it leaves in the list for the items. -/
inductive Reply where
  | answer (answer : Answer)
  | failure (error : Error) (items : List Value)

namespace Reader

variable {σ : Type} [ByteInput σ]

/-- What a call that fails leaves in the list for the items. -/
def leftover (call : ReadCall) (r : Reader σ) : List Value :=
  match call with
  | .items type decoder step max seed => (readItems type.codec decoder step max seed r).2
  | _ => []

def reply (call : ReadCall) (r : Reader σ) : Reply × Reader σ :=
  match answer call r with
  | .ok found r' => (.answer found, r')
  | .error error r' => (.failure error (leftover call r), r')

/-- What successive calls come to. A call that fails does not stop the caller. -/
def replies : List ReadCall → Reader σ → List Reply
  | [], _ => []
  | call :: calls, r => (reply call r).1 :: replies calls (reply call r).2

variable {I : σ → σ → Prop} {protocol : Protocol} {version : Nat} {r r' : Reader σ}

theorem leftover_eq (h : Congruent I I) (hr : r.Like I protocol version r') (call : ReadCall) :
    leftover call r = leftover call r' := by
  cases call with
  | step => rfl
  | item => rfl
  | items type decoder step max seed =>
    exact (readItems_related h type.codec decoder step max seed hr).2

theorem reply_like (h : Congruent I I) (hr : r.Like I protocol version r') (call : ReadCall) :
    (reply call r).1 = (reply call r').1 ∧
      (reply call r).2.Like I protocol version (reply call r').2 := by
  rcases answer_agrees h call r r' hr with ⟨found, s, t, hs, ht, hst⟩ | ⟨e, s, t, hs, ht, hst⟩
  · simp only [reply, hs, ht]
    exact ⟨trivial, hst⟩
  · simp only [reply, hs, ht, leftover_eq h hr call]
    exact ⟨trivial, hst⟩

end Reader

end TypedStream
