import TypedStream.Proofs.Codec.Raises
import TypedStream.Proofs.Congruence
import TypedStream.Proofs.Intake
import TypedStream.Proofs.Order.Calls
import TypedStream.Proofs.RoundTrip

/-!
# The order in which a reader is read

A reader moves forward only, stands between steps or inside a stream, and takes a call exactly
where the call is next (`Reader.read_order`). The bytes of the input do not matter, nor do the
calls or what becomes of them. A call that is not next is refused whatever decoder it brings, and
leaves the reader as it is.
-/

namespace TypedStream

-- ---------------------------------------------------------------------------
-- Programs
-- ---------------------------------------------------------------------------

/-- The program ends in a state with `P`, and if it fails, with an error in `E`. -/
def Ends (P : σ → Prop) (E : ε → Prop) : EStateM.Result ε σ α → Prop
  | .ok _ s => P s
  | .error e s => P s ∧ E e

section
variable {P Q : σ → Prop} {E : ε → Prop}

theorem Ends.mono {x : EStateM.Result ε σ α} (h : Ends P E x) (hPQ : ∀ s, P s → Q s) :
    Ends Q E x := by
  cases x with
  | ok a s => exact hPQ s h
  | error e s => exact ⟨hPQ s h.1, h.2⟩

theorem Ends.bind {act : EStateM ε σ α} {f : α → EStateM ε σ β} {s : σ} (h : Ends P E (act s))
    (hPQ : ∀ s, P s → Q s) (hf : ∀ a s, P s → Ends Q E (f a s)) : Ends Q E ((act >>= f) s) := by
  simp only [Bind.bind, EStateM.bind]
  cases hact : act s with
  | ok a t => exact hf a t (by rwa [hact] at h)
  | error e t =>
    rw [hact] at h
    exact ⟨hPQ t h.1, h.2⟩

theorem Ends.map {act : EStateM ε σ α} {s : σ} (h : Ends P E (act s)) (f : α → β) :
    Ends P E ((f <$> act) s) := by
  simp only [Functor.map, EStateM.map]
  cases hact : act s <;> rwa [hact] at h

end

-- ---------------------------------------------------------------------------
-- Errors of decoders
-- ---------------------------------------------------------------------------

theorem Decoder.raises_times {item : Decoder α} {count : Nat} {error : Error}
    (h : (item.times count).Raises error) : item.Raises error := by
  suffices ∀ found, (item.collect count found).Raises error → item.Raises error from this [] h
  clear h
  induction count with
  | zero => exact fun found h => h.elim
  | succ count ih =>
    intro found h
    rw [collect_succ] at h
    rcases raises_bind h with hitem | ⟨value, hrest⟩
    · exact hitem
    · exact ih _ hrest

namespace StepDecoder

/-- The caller's own decoder stops with the error on some input. -/
def Raises (error : Error) : StepDecoder α → Prop
  | current => False
  | legacy read => read.Raises error

/-- A failure that is not a refusal: it is fatal, or the caller's own decoder raises it. -/
def Fails (decoder : StepDecoder α) (error : Error) : Prop :=
  error.fatal = true ∨ decoder.Raises error

variable {codec : Codec α} {s s' : InputStream} {error : Error}

theorem one_error (hcodec : codec.Sober) (decoder : StepDecoder α)
    (h : (decoder.one codec).exec s = .error error s') : decoder.Fails error := by
  cases decoder with
  | current => exact .inl (hcodec.read.exec_error h)
  | legacy read => exact Decoder.exec_error h

theorem many_error (hcodec : codec.Sober) (decoder : StepDecoder α) (count : Nat)
    (h : (decoder.many codec count).exec s = .error error s') : decoder.Fails error := by
  cases decoder with
  | current => exact .inl ((hcodec.readRun count).exec_error h)
  | legacy read => exact (Decoder.exec_error h).imp id Decoder.raises_times

end StepDecoder

/-- What the programs fail with. -/
structure Intake.FailsIn (E : Error → Prop) (intake : Intake α) : Prop where
  one {error s s'} : intake.one s = .error error s' → E error
  many {count error s s'} : intake.many count s = .error error s' → E error

theorem StepDecoder.failsIn {codec : Codec α} (hcodec : codec.Sober) (decoder : StepDecoder α) :
    (decoder.intake codec).FailsIn decoder.Fails :=
  ⟨one_error hcodec decoder, many_error hcodec decoder _⟩

theorem Intake.failsIn_any (intake : Intake α) : intake.FailsIn fun _ => True :=
  ⟨fun _ => trivial, fun _ => trivial⟩

-- ---------------------------------------------------------------------------
-- Calls
-- ---------------------------------------------------------------------------

namespace ReadCall

def target : ReadCall → Nat
  | step _ _ i => i
  | item _ _ i => i
  | items _ _ i _ _ => i

def kind : ReadCall → StepKind
  | step .. => .scalar
  | item .. => .stream
  | items .. => .stream

def decoder : ReadCall → StepDecoder Value
  | step _ decoder _ => decoder
  | item _ decoder _ => decoder
  | items _ decoder .. => decoder

def withDecoder (decoder : StepDecoder Value) : ReadCall → ReadCall
  | step type _ i => step type decoder i
  | item type _ i => item type decoder i
  | items type _ i max seed => items type decoder i max seed

/-- A call for a batch asks for one item at least. -/
def Roomy : ReadCall → Prop
  | items _ _ _ max _ => 1 ≤ max
  | _ => True

instance : DecidablePred Roomy := fun call => by cases call <;> unfold Roomy <;> infer_instance

/-- The call is next for a reader of the protocol whose place has this number. -/
structure Admitted (call : ReadCall) (protocol : Protocol) (cursor : Nat) : Prop where
  roomy : call.Roomy
  step : ∃ name, protocol.step? call.target = some ⟨name, call.kind⟩
  cursor : cursor = 2 * call.target ∨ (0 < call.target ∧ cursor = 2 * call.target - 1) ∨
    (call.kind = .stream ∧ cursor = 2 * call.target + 1)

/-- The errors with which a call is refused. -/
def Refusal (call : ReadCall) (error : Error) : Prop :=
  if call.Roomy then ∃ refusal, error = .protocol refusal else error = .zeroCapacity

theorem Refusal.not_fatal {call : ReadCall} {error : Error} (h : call.Refusal error) :
    error.fatal = false := by
  unfold Refusal at h
  split at h
  · obtain ⟨refusal, rfl⟩ := h
    rfl
  · rw [h]
    rfl

@[simp] theorem withDecoder_self (call : ReadCall) : call.withDecoder call.decoder = call := by
  cases call <;> rfl

end ReadCall

namespace ReadPlace

theorem faces_iff {place : ReadPlace} {i : Nat} :
    place.Faces i ↔ place.code = 2 * i ∨ (0 < i ∧ place.code = 2 * i - 1) := by
  cases place <;> simp [Faces, code] <;> omega

theorem drained_iff {place : ReadPlace} {i : Nat} :
    place = .drained i ↔ place.code = 2 * i + 1 := by
  cases place with
  | drained step =>
    rw [drained.injEq, code]
    omega
  | «at» step =>
    simp only [code, reduceCtorEq, false_iff]
    omega

theorem code_le_of_faces {place : ReadPlace} {i : Nat} (h : place.Faces i) :
    place.code ≤ 2 * i := by
  rcases faces_iff.mp h with h | h <;> omega

end ReadPlace

namespace Reader

-- ---------------------------------------------------------------------------
-- Refusals
-- ---------------------------------------------------------------------------

section
variable {σ : Type} {r : Reader σ} {protocol : Protocol} {place : ReadPlace} {i : Nat}

theorem authorize_refused (hp : r.order.protocol = protocol) {kind : StepKind}
    (h : ¬ ∃ name, protocol.step? i = some ⟨name, kind⟩) :
    ∃ refusal, (Error.protocol refusal).InTurn ∧
      authorize i kind r = .error (.protocol refusal) r := by
  rcases protocol.stepOfKind_cases i kind with ⟨name, hstep, -⟩ | ⟨-, refusal, hturn, hmissing⟩
  · exact absurd ⟨name, hstep⟩ h
  · refine ⟨refusal, hturn, ?_⟩
    simp only [authorize, require, hp, hmissing]
    rfl

theorem beginScalar_refused (ho : r.order = ⟨protocol, place⟩) (h : ¬ place.Faces i) :
    ∃ refusal, beginScalar i r = .error (.protocol refusal) r := by
  cases place <;> simp_all [beginScalar, ReadOrder.beginScalar, ReadOrder.refuse, ReadPlace.Faces]

theorem beginStream_refused (ho : r.order = ⟨protocol, place⟩) (h : ¬ place.Faces i)
    (hdrained : place ≠ .drained i) :
    ∃ refusal, beginStream i r = .error (.protocol refusal) r := by
  cases place <;> simp_all [beginStream, ReadOrder.beginStream, ReadOrder.refuse, ReadPlace.Faces]

/-- A read of a scalar that is not next does not get to the input. -/
theorem scalar_entry_refused (ho : r.order = ⟨protocol, place⟩)
    (h : ¬ ((∃ name, protocol.step? i = some ⟨name, .scalar⟩) ∧ place.Faces i)) :
    ∃ refusal, authorize i .scalar r = .error (.protocol refusal) r ∨
      (authorize i .scalar r = .ok () r ∧ beginScalar i r = .error (.protocol refusal) r) := by
  have hp : r.order.protocol = protocol := by rw [ho]
  by_cases hstep : ∃ name, protocol.step? i = some ⟨name, .scalar⟩
  · obtain ⟨refusal, hrefused⟩ := beginScalar_refused ho fun hfaces => h ⟨hstep, hfaces⟩
    obtain ⟨name, hstep⟩ := hstep
    exact ⟨refusal, .inr ⟨authorize_run hp hstep, hrefused⟩⟩
  · obtain ⟨refusal, -, hrefused⟩ := authorize_refused hp hstep
    exact ⟨refusal, .inl hrefused⟩

/-- The same of a stream. -/
theorem stream_entry_refused (ho : r.order = ⟨protocol, place⟩)
    (h : ¬ ((∃ name, protocol.step? i = some ⟨name, .stream⟩) ∧
      (place.Faces i ∨ place = .drained i))) :
    ∃ refusal, authorize i .stream r = .error (.protocol refusal) r ∨
      (authorize i .stream r = .ok () r ∧ beginStream i r = .error (.protocol refusal) r) := by
  have hp : r.order.protocol = protocol := by rw [ho]
  by_cases hstep : ∃ name, protocol.step? i = some ⟨name, .stream⟩
  · have hplace : ¬ (place.Faces i ∨ place = .drained i) := fun hplace => h ⟨hstep, hplace⟩
    obtain ⟨refusal, hrefused⟩ := beginStream_refused ho (mt .inl hplace) (mt .inr hplace)
    obtain ⟨name, hstep⟩ := hstep
    exact ⟨refusal, .inr ⟨authorize_run hp hstep, hrefused⟩⟩
  · obtain ⟨refusal, -, hrefused⟩ := authorize_refused hp hstep
    exact ⟨refusal, .inl hrefused⟩

end

section
variable {σ : Type} [ByteInput σ] {r : Reader σ} {protocol : Protocol} {place : ReadPlace}

/-- The call is refused: it fails at once, whatever its decoder, and changes nothing. -/
def Refuses (r : Reader σ) (call : ReadCall) (error : Error) : Prop :=
  ∀ decoder, answer (call.withDecoder decoder) r = .error error r

theorem map_error {act : EStateM ε ρ α} {f : α → β} {s s' : ρ} {e : ε}
    (h : act s = .error e s') : (f <$> act) s = .error e s' := by
  simp only [Functor.map, EStateM.map, h]

theorem items_error {type : Ty} {decoder : StepDecoder Value} {i max : Nat} {seed : List Value}
    {error : Error} {r' : Reader σ}
    (h : (readItems type.codec decoder i max seed r).1 = .error error r') :
    answer (.items type decoder i max seed) r = .error error r' := by
  simp only [answer]
  generalize readItems type.codec decoder i max seed r = x at h
  obtain ⟨result, items⟩ := x
  obtain rfl : result = .error error r' := h
  rfl

theorem readStep_refused (ho : r.order = ⟨protocol, place⟩) {i : Nat}
    (h : ¬ ((∃ name, protocol.step? i = some ⟨name, .scalar⟩) ∧ place.Faces i)) :
    ∃ refusal, ∀ (codec : Codec α) (decoder : StepDecoder α),
      readStep codec decoder i r = .error (.protocol refusal) r := by
  obtain ⟨refusal, hrefused | ⟨hallowed, hrefused⟩⟩ := scalar_entry_refused ho h
  · exact ⟨refusal, fun codec decoder => bind_error.mpr (.inl hrefused)⟩
  · refine ⟨refusal, fun codec decoder => bind_error.mpr (.inr ⟨(), r, hallowed, ?_⟩)⟩
    exact bind_error.mpr (.inl hrefused)

/-- A stream that is not next is refused, item by item and in batches. -/
theorem stream_refused (ho : r.order = ⟨protocol, place⟩) {i : Nat}
    (h : ¬ ((∃ name, protocol.step? i = some ⟨name, .stream⟩) ∧
      (place.Faces i ∨ place = .drained i))) :
    ∃ refusal, ∀ (codec : Codec α) (decoder : StepDecoder α),
      readItem codec decoder i r = .error (.protocol refusal) r ∧
      ∀ max seed, 1 ≤ max →
        (readItems codec decoder i max seed r).1 = .error (.protocol refusal) r := by
  obtain ⟨refusal, hrefused | ⟨hallowed, hrefused⟩⟩ := stream_entry_refused ho h
  · refine ⟨refusal, fun codec decoder => ⟨bind_error.mpr (.inl hrefused), fun max seed hmax => ?_⟩⟩
    simp only [readItems, if_neg (Nat.one_le_iff_ne_zero.mp hmax), hrefused]
  · refine ⟨refusal, fun codec decoder => ⟨?_, fun max seed hmax => ?_⟩⟩
    · exact bind_error.mpr (.inr ⟨(), r, hallowed, bind_error.mpr (.inl hrefused)⟩)
    · simp only [readItems, if_neg (Nat.one_le_iff_ne_zero.mp hmax), hallowed, hrefused]

end

-- ---------------------------------------------------------------------------
-- The invariant
-- ---------------------------------------------------------------------------

/-- Where a reader of the protocol can stand: between two steps, inside a stream, or behind a
stream whose end has not been reported. -/
inductive InOrder {σ : Type} (r : Reader σ) (protocol : Protocol) : Prop
  | between {i} (order : r.order = ⟨protocol, .at i⟩) (bound : i ≤ protocol.stepCount)
    (remaining : r.remaining = 0)
  | inside {i name} (order : r.order = ⟨protocol, .at i⟩)
    (step : protocol.step? i = some ⟨name, .stream⟩)
  | drained {i name} (order : r.order = ⟨protocol, .drained i⟩)
    (step : protocol.step? i = some ⟨name, .stream⟩) (remaining : r.remaining = 0)

def cursor {σ : Type} (r : Reader σ) : Nat := r.order.place.code

/-- The reader may come to stand like `r'`: where a reader can stand, and not behind itself. -/
structure Leads {σ : Type} (r : Reader σ) (protocol : Protocol) (r' : Reader σ) : Prop where
  inOrder : r'.InOrder protocol
  cursor_le : r.cursor ≤ r'.cursor

section
variable {σ : Type} {r : Reader σ} {protocol : Protocol} {i : Nat}

theorem InOrder.order_eq (h : r.InOrder protocol) : r.order = ⟨protocol, r.order.place⟩ := by
  cases h with
  | between ho | inside ho | drained ho => rw [ho]

theorem cursor_eq {place : ReadPlace} (ho : r.order = ⟨protocol, place⟩) :
    r.cursor = place.code := by rw [cursor, ho]

theorem InOrder.leads_self (h : r.InOrder protocol) : r.Leads protocol r := ⟨h, Nat.le_refl _⟩

theorem InOrder.cursor_le (h : r.InOrder protocol) : r.cursor ≤ 2 * protocol.stepCount := by
  cases h with
  | between ho hbound =>
    rw [cursor_eq ho]
    exact Nat.mul_le_mul_left 2 hbound
  | inside ho hstep | drained ho hstep =>
    have := Protocol.lt_stepCount hstep
    rw [cursor_eq ho, ReadPlace.code]
    omega

theorem InOrder.of_odd (h : r.InOrder protocol) (hodd : r.cursor = 2 * i + 1) :
    (∃ name, protocol.step? i = some ⟨name, .stream⟩) ∧ r.remaining = 0 := by
  have hplace : r.order.place = .drained i := ReadPlace.drained_iff.mpr hodd
  cases h with
  | between ho | inside ho =>
    rw [ho] at hplace
    cases hplace
  | drained ho hstep hrem =>
    rw [ho] at hplace
    cases hplace
    exact ⟨⟨_, hstep⟩, hrem⟩

theorem InOrder.of_remaining (h : r.InOrder protocol) (hrem : 0 < r.remaining) :
    ∃ i, r.cursor = 2 * i ∧ ∃ name, protocol.step? i = some ⟨name, .stream⟩ := by
  cases h with
  | between _ _ hzero | drained _ _ hzero => exact absurd hzero (Nat.ne_of_gt hrem)
  | inside ho hstep => exact ⟨_, cursor_eq ho, _, hstep⟩

theorem Leads.trans {r' r'' : Reader σ} (h : r'.Leads protocol r'')
    (hcursor : r.cursor ≤ r'.cursor) : r.Leads protocol r'' :=
  ⟨h.inOrder, Nat.le_trans hcursor h.cursor_le⟩

theorem Leads.of_order {r' : Reader σ} (h : r'.InOrder protocol) (ho : r'.order = r.order) :
    r.Leads protocol r' := ⟨h, Nat.le_of_eq (congrArg (fun order => order.place.code) ho.symm)⟩

/-- A step that has been read leaves the reader before the next. -/
theorem Leads.finish {r' : Reader σ} {kind : StepKind} {name : String}
    (hstep : protocol.step? i = some ⟨name, kind⟩) (hcursor : r.cursor ≤ 2 * i)
    (ho : r'.order = ⟨protocol, .at i⟩) (hrem : r'.remaining = 0) :
    r.Leads protocol { r' with order := r'.order.finish i } := by
  rw [ho]
  refine ⟨.between rfl (Protocol.lt_stepCount hstep) hrem, Nat.le_trans hcursor ?_⟩
  exact Nat.mul_le_mul_left 2 (Nat.le_succ i)

/-- Only a reader inside a stream has items left; it is not about to read a scalar. -/
theorem InOrder.remaining_of_scalar (h : r.InOrder protocol) {name : String}
    (hstep : protocol.step? i = some ⟨name, .scalar⟩) (hfaces : r.order.place.Faces i) :
    r.remaining = 0 := by
  cases h with
  | between _ _ hrem | drained _ _ hrem => exact hrem
  | inside ho hstream =>
    rw [ho] at hfaces
    rcases hfaces with heq | ⟨_, heq, -⟩ <;> cases heq
    rw [hstep] at hstream
    cases hstream

end

-- ---------------------------------------------------------------------------
-- What a call does
-- ---------------------------------------------------------------------------

section
variable {r : Reader InputStream} {protocol : Protocol} {i : Nat} {name : String}
  {codec : Codec α} {E : Error → Prop}

theorem onInput_ends {act : EStateM Error InputStream β}
    (h : ∀ {error s}, act r.input = .error error s → E error) :
    Ends (fun r' => r'.order = r.order ∧ r'.remaining = r.remaining) E (onInput act r) := by
  unfold onInput
  cases hact : act r.input with
  | ok value s => exact ⟨rfl, rfl⟩
  | error error s => exact ⟨⟨rfl, rfl⟩, h hact⟩

theorem ensureBlock_ends (hE : ∀ error : Error, error.fatal = true → E error) :
    Ends (fun r' => r'.order = r.order) E (ensureBlock r) := by
  unfold ensureBlock nextBlock
  split
  · split
    · exact rfl
    · next hcount => exact ⟨rfl, hE _ (tryVarint_error hcount)⟩
  · exact rfl

theorem fillItems_ends (hcodec : codec.Sober) (decoder : StepDecoder α) (room : Nat)
    (found : List α) :
    Ends (fun r' => r'.order = r.order) decoder.Fails
      (fillItems codec decoder room found r).1 := by
  induction room using Nat.strongRecOn generalizing found r with
  | ind room ih =>
    unfold fillItems
    split
    · exact rfl
    next hgo =>
    have hread := onInput_ends (r := r) (E := decoder.Fails)
      (StepDecoder.many_error hcodec decoder (min r.remaining room))
    dsimp only
    generalize onInput (decoder.many codec (min r.remaining room)).exec r = x at hread
    cases x with
    | error error r₁ => exact ⟨hread.1.1, hread.2⟩
    | ok items r₁ =>
      obtain ⟨r₁', hr₁'⟩ :
          ∃ r', r' = { r₁ with remaining := r₁.remaining - min r.remaining room } := ⟨_, rfl⟩
      have ho : r₁'.order = r.order := by
        rw [hr₁']
        exact hread.1
      have hblock := ensureBlock_ends (r := r₁') (E := decoder.Fails) fun _ => .inl
      dsimp only
      rw [← hr₁']
      generalize ensureBlock r₁' = y at hblock
      cases y with
      | error error r₂ => exact ⟨hblock.1.trans ho, hblock.2⟩
      | ok _ r₂ => exact (ih _ (by omega) _).mono fun r' ho' => ho'.trans (hblock.trans ho)

/-- The two ways in which a stream read begins: at the end of the stream, or before a block. -/
theorem beginStream_ends (hr : r.InOrder protocol) (hstep : protocol.step? i = some ⟨name, .stream⟩)
    (hplace : r.order.place.Faces i ∨ r.order.place = .drained i) :
    (∃ r', beginStream i r = .ok .finished r' ∧ r.Leads protocol r') ∨
    ∃ r', beginStream i r = .ok .proceed r' ∧ r'.order = ⟨protocol, .at i⟩ ∧
      r.cursor ≤ r'.cursor := by
  rcases hplace with hfaces | hdrained
  · exact .inr ⟨_, beginStream_run hr.order_eq hfaces, rfl, ReadPlace.code_le_of_faces hfaces⟩
  · have ho : r.order = ⟨protocol, .drained i⟩ := by rw [hr.order_eq, hdrained]
    have hodd : r.cursor = 2 * i + 1 := cursor_eq ho
    have hrem := (hr.of_odd hodd).2
    refine .inl ⟨_, beginStream_drained ho, .between rfl (Protocol.lt_stepCount hstep) hrem, ?_⟩
    rw [hodd]
    exact Nat.le_succ _

theorem enter_ends (hE : ∀ error : Error, error.fatal = true → E error) (hr : r.InOrder protocol)
    (hstep : protocol.step? i = some ⟨name, .stream⟩)
    (hplace : r.order.place.Faces i ∨ r.order.place = .drained i) :
    (∃ r', enter i r = .ok .finished r' ∧ r.Leads protocol r') ∨
    (∃ r', enter i r = .ok .proceed r' ∧ r'.order = ⟨protocol, .at i⟩ ∧ r.cursor ≤ r'.cursor) ∨
    ∃ error r', enter i r = .error error r' ∧ r.Leads protocol r' ∧ E error := by
  have hallowed := authorize_run (congrArg _ hr.order_eq) hstep
  rcases beginStream_ends hr hstep hplace with ⟨r', hbegin, hleads⟩ | ⟨r', hbegin, ho, hcursor⟩
  · refine .inl ⟨r', bind_ok.mpr ⟨(), r, hallowed, ?_⟩, hleads⟩
    exact bind_ok.mpr ⟨.finished, r', hbegin, rfl⟩
  have hblock := ensureBlock_ends (r := r') hE
  cases hensure : ensureBlock r' with
  | ok found r₁ =>
    rw [hensure] at hblock
    have ho₁ : r₁.order = r'.order := hblock
    refine .inr (.inl ⟨r₁, bind_ok.mpr ⟨(), r, hallowed, ?_⟩, ho₁.trans ho, ?_⟩)
    · exact bind_ok.mpr ⟨.proceed, r', hbegin, bind_ok.mpr ⟨(), r₁, hensure, rfl⟩⟩
    · rwa [cursor, cursor, ho₁]
  | error error r₁ =>
    rw [hensure] at hblock
    obtain ⟨ho₁, herror⟩ := hblock
    refine .inr (.inr ⟨error, r₁, bind_error.mpr (.inr ⟨(), r, hallowed, ?_⟩), ?_, herror⟩)
    · exact bind_error.mpr (.inr ⟨.proceed, r', hbegin, bind_error.mpr (.inl hensure)⟩)
    · exact Leads.trans (.of_order (.inside (ho₁.trans ho) hstep) ho₁) hcursor

theorem endBatch_leads (items : List α) (hstep : protocol.step? i = some ⟨name, .stream⟩)
    (ho : r.order = ⟨protocol, .at i⟩) : r.Leads protocol (endBatch i items r).2 := by
  unfold endBatch
  split
  · next hrem =>
    have ho' : r.order.drain i = ⟨protocol, .drained i⟩ := by
      rw [ho]
      rfl
    refine ⟨.drained ho' hstep hrem, ?_⟩
    rw [cursor_eq ho]
    exact Nat.le_succ _
  · exact .of_order (.inside ho hstep) rfl

theorem readItems_ends (hcodec : codec.Sober) (decoder : StepDecoder α) (hr : r.InOrder protocol)
    (hstep : protocol.step? i = some ⟨name, .stream⟩)
    (hplace : r.order.place.Faces i ∨ r.order.place = .drained i) {max : Nat} (hmax : 1 ≤ max)
    (seed : List α) :
    Ends (r.Leads protocol) decoder.Fails (readItems codec decoder i max seed r).1 := by
  unfold readItems
  rw [if_neg (Nat.one_le_iff_ne_zero.mp hmax), authorize_run (congrArg _ hr.order_eq) hstep]
  dsimp only
  rcases beginStream_ends hr hstep hplace with ⟨r', hbegin, hleads⟩ | ⟨r', hbegin, ho, hcursor⟩
  · rw [hbegin]
    exact hleads
  rw [hbegin]
  have hinside : ∀ r₁ : Reader InputStream, r₁.order = r'.order → r.Leads protocol r₁ :=
    fun r₁ ho₁ => Leads.trans (.of_order (.inside (ho₁.trans ho) hstep) ho₁) hcursor
  have hblock := ensureBlock_ends (r := r') (E := decoder.Fails) fun _ => .inl
  dsimp only
  generalize ensureBlock r' = x at hblock
  cases x with
  | error error r₁ => exact ⟨hinside r₁ hblock.1, hblock.2⟩
  | ok _ r₁ =>
    have hfill := fillItems_ends (r := r₁) hcodec decoder max []
    dsimp only
    generalize fillItems codec decoder max [] r₁ = y at hfill
    obtain ⟨y, items⟩ := y
    cases y with
    | error error r₂ => exact ⟨hinside r₂ (hfill.1.trans hblock), hfill.2⟩
    | ok _ r₂ =>
      have ho₂ : r₂.order = r'.order := hfill.trans hblock
      exact (endBatch_leads items hstep (ho₂.trans ho)).trans (hinside r₂ ho₂).cursor_le

end

end Reader

-- ---------------------------------------------------------------------------
-- Reads by any programs
-- ---------------------------------------------------------------------------

namespace Intake

open Reader (onInput_ends beginScalar_run authorize_run)

section
variable {intake : Intake α} {r : Reader InputStream} {protocol : Protocol} {i : Nat}
  {name : String} {E : Error → Prop}

theorem readStep_ends (hE : intake.FailsIn E) (hr : r.InOrder protocol)
    (hstep : protocol.step? i = some ⟨name, .scalar⟩) (hfaces : r.order.place.Faces i) :
    Ends (r.Leads protocol) E (intake.readStep i r) := by
  have hrem := hr.remaining_of_scalar hstep hfaces
  have hcursor : r.cursor ≤ 2 * i := ReadPlace.code_le_of_faces hfaces
  have hread := onInput_ends (r := { r with order := ⟨protocol, .at i⟩ }) hE.one
  simp only [readStep, bind, EStateM.bind, authorize_run (congrArg _ hr.order_eq) hstep,
    beginScalar_run hr.order_eq hfaces]
  generalize Reader.onInput intake.one { r with order := ⟨protocol, .at i⟩ } = x at hread
  cases x with
  | error error r' =>
    obtain ⟨⟨ho, hzero⟩, hfails⟩ := hread
    have hbound := Nat.le_of_lt (Protocol.lt_stepCount hstep)
    refine ⟨⟨.between ho hbound (hzero.trans hrem), ?_⟩, hfails⟩
    rwa [Reader.cursor_eq ho]
  | ok value r' =>
    obtain ⟨ho, hzero⟩ := hread
    exact .finish hstep hcursor ho (hzero.trans hrem)

theorem takeItem_ends (hE : intake.FailsIn E) (hstep : protocol.step? i = some ⟨name, .stream⟩)
    (ho : r.order = ⟨protocol, .at i⟩) : Ends (r.Leads protocol) E (intake.takeItem i r) := by
  unfold takeItem
  split
  · next hrem => exact .finish hstep (Nat.le_of_eq (Reader.cursor_eq ho)) ho hrem
  · have hread := onInput_ends (r := r) hE.one
    generalize Reader.onInput intake.one r = x at hread
    cases x with
    | ok item r' => exact .of_order (.inside (hread.1.trans ho) hstep) hread.1
    | error error r' =>
      exact ⟨.of_order (.inside (hread.1.1.trans ho) hstep) hread.1.1, hread.2⟩

theorem readItem_ends (hE : intake.FailsIn E) (hfatal : ∀ error : Error, error.fatal = true → E error)
    (hr : r.InOrder protocol) (hstep : protocol.step? i = some ⟨name, .stream⟩)
    (hplace : r.order.place.Faces i ∨ r.order.place = .drained i) :
    Ends (r.Leads protocol) E (intake.readItem i r) := by
  simp only [readItem, bind, EStateM.bind]
  rcases Reader.enter_ends hfatal hr hstep hplace with
    ⟨r', henter, hleads⟩ | ⟨r', henter, ho, hcursor⟩ | ⟨error, r', henter, hleads, herror⟩
  · rw [henter]
    exact hleads
  · rw [henter]
    exact (takeItem_ends hE hstep ho).mono fun _ hleads => hleads.trans hcursor
  · rw [henter]
    exact ⟨hleads, herror⟩

end

end Intake

namespace Reader

section
variable {r : Reader InputStream} {protocol : Protocol} {i : Nat} {name : String}

-- ---------------------------------------------------------------------------
-- Calls
-- ---------------------------------------------------------------------------

theorem place_of_admitted {call : ReadCall} (h : call.Admitted protocol r.cursor) :
    r.order.place.Faces call.target ∨ r.order.place = .drained call.target := by
  rcases h.cursor with hat | hbefore | ⟨-, hodd⟩
  · exact .inl (ReadPlace.faces_iff.mpr (.inl hat))
  · exact .inl (ReadPlace.faces_iff.mpr (.inr hbefore))
  · exact .inr (ReadPlace.drained_iff.mpr hodd)

theorem faces_of_admitted {type : Ty} {decoder : StepDecoder Value}
    (h : (ReadCall.step type decoder i).Admitted protocol r.cursor) : r.order.place.Faces i := by
  rcases h.cursor with hat | hbefore | ⟨hkind, -⟩
  · exact ReadPlace.faces_iff.mpr (.inl hat)
  · exact ReadPlace.faces_iff.mpr (.inr hbefore)
  · cases hkind

theorem admitted_of_place {call : ReadCall} (hroomy : call.Roomy)
    (hstep : ∃ name, protocol.step? call.target = some ⟨name, call.kind⟩)
    (h : r.order.place.Faces call.target ∨
      (call.kind = .stream ∧ r.order.place = .drained call.target)) :
    call.Admitted protocol r.cursor := by
  refine ⟨hroomy, hstep, ?_⟩
  rcases h with hfaces | ⟨hkind, hdrained⟩
  · exact (ReadPlace.faces_iff.mp hfaces).imp id .inl
  · exact .inr (.inr ⟨hkind, ReadPlace.drained_iff.mp hdrained⟩)

theorem not_next_of_stream {call : ReadCall} (hroomy : call.Roomy) (hkind : call.kind = .stream)
    (h : ¬ call.Admitted protocol r.cursor) :
    ¬ ((∃ name, protocol.step? call.target = some ⟨name, .stream⟩) ∧
      (r.order.place.Faces call.target ∨ r.order.place = .drained call.target)) := by
  rintro ⟨hstep, hplace⟩
  rw [← hkind] at hstep
  exact h (admitted_of_place hroomy hstep (hplace.imp id (.intro hkind)))

theorem answer_admitted (hr : r.InOrder protocol) {call : ReadCall}
    (h : call.Admitted protocol r.cursor) :
    Ends (r.Leads protocol) call.decoder.Fails (answer call r) := by
  obtain ⟨name, hstep⟩ := h.step
  cases call with
  | step type decoder i =>
    have hread := Intake.readStep_ends (decoder.failsIn type.sober_codec) hr hstep
      (faces_of_admitted h)
    exact hread.map _
  | item type decoder i =>
    have hread : Ends (r.Leads protocol) decoder.Fails (readItem type.codec decoder i r) := by
      rw [readItem_eq]
      exact Intake.readItem_ends (decoder.failsIn type.sober_codec) (fun _ => .inl) hr hstep
        (place_of_admitted h)
    exact hread.map _
  | items type decoder i max seed =>
    have hread : Ends (r.Leads protocol) decoder.Fails
        (readItems type.codec decoder i max seed r).1 :=
      readItems_ends type.sober_codec decoder hr hstep (place_of_admitted h) h.roomy seed
    simp only [answer]
    generalize readItems type.codec decoder i max seed r = x at hread
    obtain ⟨result, items⟩ := x
    cases result with
    | ok more r' => exact hread
    | error error r' => exact hread

theorem answer_refused (hr : r.InOrder protocol) {call : ReadCall}
    (h : ¬ call.Admitted protocol r.cursor) :
    ∃ error, call.Refusal error ∧ r.Refuses call error := by
  by_cases hroomy : call.Roomy
  · simp only [ReadCall.Refusal, if_pos hroomy]
    cases call with
    | step type _ i =>
      have hnext : ¬ ((∃ name, protocol.step? i = some ⟨name, .scalar⟩) ∧ r.order.place.Faces i) :=
        fun ⟨hstep, hfaces⟩ => h (admitted_of_place hroomy hstep (.inl hfaces))
      obtain ⟨refusal, hrefused⟩ := readStep_refused (α := Value) hr.order_eq hnext
      exact ⟨_, ⟨refusal, rfl⟩, fun decoder => map_error (hrefused _ _)⟩
    | item type _ i =>
      obtain ⟨refusal, hrefused⟩ :=
        stream_refused (α := Value) hr.order_eq (not_next_of_stream hroomy rfl h)
      exact ⟨_, ⟨refusal, rfl⟩, fun decoder => map_error (hrefused _ _).1⟩
    | items type _ i max seed =>
      obtain ⟨refusal, hrefused⟩ :=
        stream_refused (α := Value) hr.order_eq (not_next_of_stream hroomy rfl h)
      exact ⟨_, ⟨refusal, rfl⟩, fun decoder => items_error ((hrefused _ _).2 max seed hroomy)⟩
  · simp only [ReadCall.Refusal, if_neg hroomy]
    refine ⟨_, rfl, fun decoder => ?_⟩
    cases call with
    | step | item => exact absurd trivial hroomy
    | items type _ i max seed =>
      obtain rfl : max = 0 := Nat.eq_zero_of_not_pos hroomy
      exact items_error (by rw [readItems, if_pos rfl])

theorem admitted_of_answer (hr : r.InOrder protocol) {call : ReadCall} {found : Answer}
    {r' : Reader InputStream} (h : answer call r = .ok found r') :
    call.Admitted protocol r.cursor := by
  by_contra hnot
  obtain ⟨error, -, hrefuses⟩ := answer_refused hr hnot
  have hself := hrefuses call.decoder
  rw [ReadCall.withDecoder_self, h] at hself
  cases hself

theorem answer_leads (hr : r.InOrder protocol) (call : ReadCall) :
    r.Leads protocol (reply call r).2 := by
  by_cases h : call.Admitted protocol r.cursor
  · have hends := answer_admitted hr h
    unfold reply
    generalize answer call r = x at hends
    cases x with
    | ok found r' => exact hends
    | error error r' => exact hends.1
  · obtain ⟨error, -, hrefuses⟩ := answer_refused hr h
    have hself := hrefuses call.decoder
    rw [ReadCall.withDecoder_self] at hself
    simp only [reply, hself]
    exact hr.leads_self

end

-- ---------------------------------------------------------------------------
-- Runs
-- ---------------------------------------------------------------------------

/-- The reader after these calls, whatever they have come to. -/
def after {σ : Type} [ByteInput σ] : List ReadCall → Reader σ → Reader σ
  | [], r => r
  | call :: calls, r => after calls (reply call r).2

theorem after_leads {r : Reader InputStream} {protocol : Protocol} (hr : r.InOrder protocol)
    (calls : List ReadCall) : r.Leads protocol (after calls r) := by
  induction calls generalizing r with
  | nil => exact hr.leads_self
  | cons call calls ih =>
    have hcall := answer_leads hr call
    exact (ih hcall.inOrder).trans hcall.cursor_le

theorem open_inOrder {σ : Type} [ByteInput σ] {protocol : Protocol} {input : σ} {r : Reader σ}
    (h : Reader.open protocol input = .ok r) : r.InOrder protocol := by
  unfold Reader.open at h
  split at h
  · cases h
  · split at h
    · cases h
    · cases h
      exact .between rfl (Nat.zero_le _) rfl

/-- After any calls, on whatever bytes, a reader stands where a reader of the protocol can stand,
and further calls do not take it back. It refuses the calls that are not next, each in the way it
deserves, and no other: a call that is next fails fatally or through its own decoder. A refused
call changes nothing, so that later calls come to what they come to without it. -/
theorem read_order {protocol : Protocol} {input : InputStream} {r₀ : Reader InputStream}
    (hopen : Reader.open protocol input = .ok r₀) (calls : List ReadCall) :
    let r := after calls r₀
    r.cursor ≤ 2 * protocol.stepCount ∧
    (∀ i, r.cursor = 2 * i + 1 →
      (∃ name, protocol.step? i = some ⟨name, .stream⟩) ∧ r.remaining = 0) ∧
    (0 < r.remaining →
      ∃ i, r.cursor = 2 * i ∧ ∃ name, protocol.step? i = some ⟨name, .stream⟩) ∧
    (∀ more, r.cursor ≤ (after more r).cursor) ∧
    ∀ call : ReadCall,
      ((∃ error, call.Refusal error ∧ r.Refuses call error) ↔
        ¬ call.Admitted protocol r.cursor) ∧
      (∀ error, r.Refuses call error →
        reply call r = (.failure error (leftover call r), r) ∧
        ∀ more, replies (call :: more) r = .failure error (leftover call r) :: replies more r) ∧
      (call.Admitted protocol r.cursor →
        ∀ error r', answer call r = .error error r' → call.decoder.Fails error) := by
  intro r
  have hr : r.InOrder protocol := (after_leads (open_inOrder hopen) calls).inOrder
  refine ⟨hr.cursor_le, fun i => hr.of_odd, hr.of_remaining,
    fun more => (after_leads hr more).cursor_le, fun call => ⟨⟨?_, answer_refused hr⟩, ?_, ?_⟩⟩
  · rintro ⟨error, hrefusal, hrefuses⟩ hadmitted
    -- The codec of the type raises nothing but fatal errors, so a refusal is not its own.
    have hcurrent : (call.withDecoder .current).Admitted protocol r.cursor := by
      cases call <;> exact ⟨hadmitted.roomy, hadmitted.step, hadmitted.cursor⟩
    have hends := answer_admitted hr hcurrent
    rw [hrefuses .current] at hends
    have hfatal : error.fatal = true := by
      cases call <;> exact hends.2.elim id False.elim
    rw [hrefusal.not_fatal] at hfatal
    cases hfatal
  · intro error hrefuses
    have hself := hrefuses call.decoder
    rw [ReadCall.withDecoder_self] at hself
    have hreply : reply call r = (.failure error (leftover call r), r) := by
      simp only [reply, hself]
    exact ⟨hreply, fun more => by rw [replies, hreply]⟩
  · intro hadmitted error r' herror
    have hends := answer_admitted hr hadmitted
    rw [herror] at hends
    exact hends.2

/-- Before the label of the ticks has been read, the ticks are refused; the damaged label is not. -/
theorem read_order_ticks :
    ∃ r₀, Reader.open Ticks.protocol
        (InputStream.open (.ofBytes (Header.bytes Ticks.protocol.schema ++ [2])) 0 0) = .ok r₀ ∧
      (∃ error, (ReadCall.item .unit .current 1).Refusal error ∧
        r₀.Refuses (.item .unit .current 1) error) ∧
      ¬ ∃ error, (ReadCall.step .bool .current 0).Refusal error ∧
        r₀.Refuses (.step .bool .current 0) error := by
  have hreliable : (Source.ofBytes (Header.bytes Ticks.protocol.schema ++ [2])).Reliable :=
    ⟨rfl, by simp [Source.ofBytes]⟩
  have hahead := InputStream.ahead_open hreliable 0 0
  obtain ⟨r₀, hopen, hbefore⟩ := Reader.open_run (by decide) hahead
  obtain ⟨place, ho, hfaces⟩ := hbefore.order
  have hcursor : r₀.cursor = 0 := Nat.le_zero.mp (cursor_eq ho ▸ ReadPlace.code_le_of_faces hfaces)
  obtain ⟨-, -, -, -, hcalls⟩ := read_order hopen []
  refine ⟨r₀, hopen, (hcalls _).1.mpr ?_, fun hrefused => (hcalls _).1.mp hrefused ?_⟩
  · rintro ⟨-, -, hplace⟩
    simp [after, hcursor, ReadCall.target] at hplace
  · exact ⟨trivial, ⟨"label", rfl⟩, .inl hcursor⟩

end Reader

end TypedStream
