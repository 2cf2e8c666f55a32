import TypedStream.Proofs.Writing

/-!
# Runs that a writer accepts

The calls of a run that a writer accepts to its end write the parts of a file
(`Script.of_runCalls`): a call that is out of order or of the wrong kind would have been refused.
A sink that takes a whole run takes it as a sink without a limit does, so of every accepted run
it is known what the sink holds behind it (`Writer.accepted`).
-/

namespace TypedStream

-- ---------------------------------------------------------------------------
-- Calls and parts
-- ---------------------------------------------------------------------------

def WriteCall.Fits (types : Nat → Ty) : WriteCall → Prop
  | .step type i value => type = types i ∧ ∃ v, type.Lists v value
  | .item type i value => type = types i ∧ ∃ v, type.Lists v value
  | .items type i values => type = types i ∧ (∀ value ∈ values, ∃ v, type.Lists v value) ∧
      values.length < sizeLimit ∧ type.RunFits values.length
  | .endStream _ => True
  | .flush => True

theorem Datum.exists_written {items : List Value} (h : ∀ item ∈ items, ∃ v, type.Lists v item) :
    ∃ data : List (Datum type), data.map written = items := by
  induction items with
  | nil => exact ⟨[], rfl⟩
  | cons item items ih =>
    obtain ⟨hitem, hitems⟩ := List.forall_mem_cons.mp h
    obtain ⟨value, hlists⟩ := hitem
    obtain ⟨data, hdata⟩ := ih hitems
    exact ⟨⟨value, item, hlists⟩ :: data, by rw [List.map_cons, hdata]⟩

namespace Part

def itemType : Part → Ty
  | scalar type _ => type
  | stream type _ => type

end Part

theorem drop_of_getElem? {steps : List Step} {i : Nat} {step : Step} (h : steps[i]? = some step) :
    steps.drop i = step :: steps.drop (i + 1) := by
  obtain ⟨hlt, rfl⟩ := List.getElem?_eq_some_iff.mp h
  exact List.drop_eq_getElem_cons hlt

namespace Writer

-- ---------------------------------------------------------------------------
-- Order
-- ---------------------------------------------------------------------------

section
variable {w w' : Writer} {step : Nat} {kind : StepKind}

def At (w : Writer) (step : Nat) (kind : StepKind) : Prop :=
  w.order.next = step ∧ ∃ name, w.order.protocol.step? step = some ⟨name, kind⟩

theorem At.drop_eq (h : w.At step kind) :
    ∃ name, w.order.protocol.steps.drop w.order.next =
      ⟨name, kind⟩ :: w.order.protocol.steps.drop (w.order.next + 1) := by
  obtain ⟨rfl, name, hstep⟩ := h
  exact ⟨name, drop_of_getElem? hstep⟩

theorem authorize_inv {check : WriteOrder → Except Error Unit} {found : Step}
    (hcheck : ∀ order, check order = .ok () → order.next = step)
    (h : authorize check step kind w = .ok found w') : w' = w ∧ w.At step kind := by
  unfold authorize at h
  split at h
  · cases h
  next hpass =>
  unfold Protocol.stepOfKind at h
  split at h
  · next found' hfound =>
    cases h
    refine ⟨rfl, hcheck _ hpass, ?_⟩
    split at hfound
    · cases hfound
    · next found'' hstep =>
      split at hfound
      · next hkind =>
        cases hfound
        exact ⟨found.name, by rw [hstep, ← hkind]⟩
      · cases hfound
  · cases h

theorem authorize_write_inv {found : Step}
    (h : authorize (·.checkWrite step) step kind w = .ok found w') : w' = w ∧ w.At step kind := by
  refine authorize_inv (fun order hpass => ?_) h
  unfold WriteOrder.checkWrite WriteOrder.refuse at hpass
  split at hpass
  · assumption
  · cases hpass

theorem authorize_end_inv {found : Step}
    (h : authorize (·.checkEnd step) step kind w = .ok found w') : w' = w ∧ w.At step kind := by
  refine authorize_inv (fun order hpass => ?_) h
  unfold WriteOrder.checkEnd WriteOrder.refuse at hpass
  split at hpass
  · assumption
  · cases hpass

theorem onStream_inv {act : EStateM Error OutputStream α} {a : α}
    (h : onStream act w = .ok a w') : w'.order = w.order := by
  unfold onStream at h
  split at h <;> cases h
  rfl

theorem putBlock_inv {codec : Codec α} {name : String} {items : List α}
    (h : putBlock codec name items w = .ok () w') : w'.order = w.order := by
  rcases Option.eq_none_or_eq_some w.index with hindex | ⟨index, hindex⟩
  · rw [putBlock_none hindex] at h
    exact onStream_inv h
  · rw [putBlock_some hindex] at h
    obtain ⟨offsets, w₁, h₁, h₂⟩ := bind_ok.mp h
    cases h₂
    show w₁.order = w.order
    exact onStream_inv h₁

theorem mark_inv {name : String} (h : mark name w = .ok () w') : w'.order = w.order := by
  cases h
  rfl

theorem writeStep_inv {codec : Codec α} {value : α} (h : writeStep codec step value w = .ok () w') :
    w.At step .scalar ∧ w'.order = w.order.finish step := by
  obtain ⟨found, w₁, h₁, hrest⟩ := bind_ok.mp h
  obtain ⟨rfl, hat⟩ := authorize_write_inv h₁
  obtain ⟨_, w₂, h₂, hrest⟩ := bind_ok.mp hrest
  obtain ⟨_, w₃, h₃, hfinish⟩ := bind_ok.mp hrest
  cases hfinish
  exact ⟨hat, congrArg (·.finish step) ((onStream_inv h₃).trans (mark_inv h₂))⟩

theorem writeItems_inv {codec : Codec α} {items : List α}
    (h : writeItems codec step items w = .ok () w') : w.At step .stream ∧ w'.order = w.order := by
  obtain ⟨found, w₁, h₁, hrest⟩ := bind_ok.mp h
  obtain ⟨rfl, hat⟩ := authorize_write_inv h₁
  refine ⟨hat, ?_⟩
  split at hrest
  · cases hrest
    rfl
  · obtain ⟨_, w₂, h₂, hrest⟩ := bind_ok.mp hrest
    obtain ⟨_, w₃, h₃, hblock⟩ := bind_ok.mp hrest
    exact (putBlock_inv hblock).trans ((onStream_inv h₃).trans (mark_inv h₂))

theorem endStream_inv (h : endStream step w = .ok () w') :
    w.At step .stream ∧ w'.order = w.order.finish step := by
  obtain ⟨found, w₁, h₁, hrest⟩ := bind_ok.mp h
  obtain ⟨rfl, hat⟩ := authorize_end_inv h₁
  obtain ⟨_, w₂, h₂, hrest⟩ := bind_ok.mp hrest
  obtain ⟨_, w₃, h₃, hfinish⟩ := bind_ok.mp hrest
  cases hfinish
  exact ⟨hat, congrArg (·.finish step) ((onStream_inv h₃).trans (mark_inv h₂))⟩

end

end Writer

namespace Part

/-- The parts are of the types that the steps from step `i` have. -/
def Typed (types : Nat → Ty) (i : Nat) (parts : List Part) : Prop :=
  ∀ k (part : Part), parts[k]? = some part → part.itemType = types (i + k)

theorem Typed.cons {types : Nat → Ty} {i : Nat} {parts : List Part}
    (h : Typed types (i + 1) parts) {part : Part} (hpart : part.itemType = types i) :
    Typed types i (part :: parts) := by
  intro k found hfound
  cases k with
  | zero =>
    obtain rfl := Option.some.inj hfound
    exact hpart
  | succ k =>
    rw [← Nat.succ_add_eq_add_succ]
    exact h k found hfound

theorem Typed.tail {types : Nat → Ty} {i : Nat} {part : Part} {parts : List Part}
    (h : Typed types i (part :: parts)) : Typed types (i + 1) parts := by
  intro k found hfound
  rw [Nat.succ_add_eq_add_succ]
  exact h (k + 1) found hfound

theorem Typed.stream {types : Nat → Ty} {i : Nat} {parts : List Part} {steps : List Step}
    {name : String} (h : Typed types i parts) (hfill : Fill (⟨name, .stream⟩ :: steps) parts) :
    ∃ batches rest, parts = stream (types i) batches :: rest := by
  cases parts with
  | nil => cases hfill
  | cons part rest =>
    have htype := h 0 part rfl
    cases part with
    | scalar => cases (List.cons.inj hfill).1
    | stream type batches =>
      obtain rfl : type = types i := htype
      exact ⟨batches, rest, rfl⟩

end Part

open Writer in
theorem Script.of_runCalls {types : Nat → Ty} {calls : List WriteCall} {w w' : Writer}
    (hfits : ∀ call ∈ calls, call.Fits types) (h : runCalls calls w = .ok () w')
    (hend : w'.order.complete = true) :
    ∃ parts, Script w.order.next parts calls ∧
      Part.Fill (w.order.protocol.steps.drop w.order.next) parts ∧
      Part.Typed types w.order.next parts := by
  -- The parts are found from the last call to the first: what a call writes goes in front of what
  -- the later calls have been shown to write.
  induction calls generalizing w with
  | nil =>
    obtain ⟨-, rfl⟩ := pure_ok.mp h
    have hnext : w.order.next = w.order.protocol.steps.length := by
      simpa [WriteOrder.complete, Protocol.stepCount] using hend
    refine ⟨[], .nil, ?_, fun k part hpart => by cases hpart⟩
    rw [hnext, List.drop_length]
    rfl
  | cons call calls ih =>
    obtain ⟨_, w₁, h₁, h₂⟩ := bind_ok.mp h
    obtain ⟨hcall, hcalls⟩ := List.forall_mem_cons.mp hfits
    obtain ⟨parts, hscript, hfill, htyped⟩ := ih hcalls h₂
    cases call with
    | flush =>
      rw [onStream_inv h₁] at hscript hfill htyped
      exact ⟨parts, .flush hscript, hfill, htyped⟩
    | step type i value =>
      obtain ⟨rfl, v, hlists⟩ := hcall
      obtain ⟨hat, horder⟩ := writeStep_inv h₁
      obtain ⟨name, hdrop⟩ := hat.drop_eq
      obtain ⟨rfl, -⟩ := hat
      rw [horder] at hscript hfill htyped
      let datum : Datum (types w.order.next) := ⟨v, value, hlists⟩
      refine ⟨.scalar _ datum :: parts, .scalar hscript, ?_, htyped.cons rfl⟩
      rw [hdrop]
      exact congrArg _ hfill
    | item type i value =>
      obtain ⟨rfl, v, hlists⟩ := hcall
      obtain ⟨hat, horder⟩ := writeItems_inv h₁
      obtain ⟨name, hdrop⟩ := hat.drop_eq
      obtain ⟨rfl, -⟩ := hat
      rw [horder] at hscript hfill htyped
      rw [hdrop] at hfill ⊢
      obtain ⟨batches, rest, rfl⟩ := htyped.stream hfill
      let datum : Datum (types w.order.next) := ⟨v, value, hlists⟩
      exact ⟨.stream _ (.single datum :: batches) :: rest, .item hscript, hfill,
        htyped.tail.cons rfl⟩
    | items type i values =>
      obtain ⟨rfl, hlists, hshort, hruns⟩ := hcall
      obtain ⟨hat, horder⟩ := writeItems_inv h₁
      obtain ⟨name, hdrop⟩ := hat.drop_eq
      obtain ⟨rfl, -⟩ := hat
      rw [horder] at hscript hfill htyped
      rw [hdrop] at hfill ⊢
      obtain ⟨batches, rest, rfl⟩ := htyped.stream hfill
      obtain ⟨data, rfl⟩ := Datum.exists_written hlists
      rw [List.length_map] at hshort hruns
      let batch : Batch (types w.order.next) := ⟨data, hshort, hruns⟩
      exact ⟨.stream _ (batch :: batches) :: rest, .items hscript, hfill, htyped.tail.cons rfl⟩
    | endStream i =>
      obtain ⟨hat, horder⟩ := endStream_inv h₁
      obtain ⟨name, hdrop⟩ := hat.drop_eq
      obtain ⟨rfl, -⟩ := hat
      rw [horder] at hscript hfill htyped
      refine ⟨.stream (types w.order.next) [] :: parts, .endStream hscript, ?_, htyped.cons rfl⟩
      rw [hdrop]
      exact congrArg _ hfill

def WriteCall.itemsFor (k : Nat) : WriteCall → List Value
  | .item _ i value => if i = k then [value] else []
  | .items _ i values => if i = k then values else []
  | _ => []

namespace Script

variable {i k : Nat} {parts : List Part} {calls : List WriteCall}

theorem itemsFor_before (h : Script i parts calls) (hk : k < i) :
    calls.flatMap (WriteCall.itemsFor k) = [] := by
  induction h with
  | nil => rfl
  | flush _ ih => exact ih hk
  | scalar _ ih => exact ih (Nat.lt_succ_of_lt hk)
  | item _ ih => rw [List.flatMap_cons, ih hk, WriteCall.itemsFor, if_neg (Nat.ne_of_gt hk)]; rfl
  | items _ ih => rw [List.flatMap_cons, ih hk, WriteCall.itemsFor, if_neg (Nat.ne_of_gt hk)]; rfl
  | endStream _ ih => exact ih (Nat.lt_succ_of_lt hk)

end Script

-- ---------------------------------------------------------------------------
-- Sinks with a limit
-- ---------------------------------------------------------------------------

/-- Where the program succeeds, it succeeds from the image under `f` in the same way. -/
def Lifts (f : σ → σ) (act : EStateM ε σ α) : Prop :=
  ∀ a s t, act s = .ok a t → act (f s) = .ok a (f t)

theorem Lifts.pure {f : σ → σ} (a : α) : Lifts f (pure a : EStateM ε σ α) := by
  intro b s t h
  obtain ⟨rfl, rfl⟩ := pure_ok.mp h
  rfl

theorem Lifts.bind {f : σ → σ} {act : EStateM ε σ α} {next : α → EStateM ε σ β} (h : Lifts f act)
    (hnext : ∀ a, Lifts f (next a)) : Lifts f (act >>= next) := by
  intro b s t hrun
  obtain ⟨a, u, hact, hrest⟩ := bind_ok.mp hrun
  exact bind_ok.mpr ⟨a, f u, h a s u hact, hnext a b u t hrest⟩

/-- The same sink with room for everything. -/
def Sink.unlimited (sink : Sink) : Sink := { sink with limit := none }

theorem Sink.store_unlimited {sink sink' : Sink} {data : Bytes}
    (h : sink.store data = (sink', [])) : sink.unlimited.store data = (sink'.unlimited, []) := by
  unfold store at h
  split at h
  · obtain ⟨rfl, -⟩ := Prod.mk.inj h
    rfl
  · next limit hlimit =>
    obtain ⟨rfl, hdrop⟩ := Prod.mk.inj h
    have htake : data.take (limit - sink.held.size) = data :=
      List.take_of_length_le (List.drop_eq_nil_iff.mp hdrop)
    simp only [store, unlimited, htake]

namespace OutputStream

def unlimited (s : OutputStream) : OutputStream := { s with sink := s.sink.unlimited }

theorem flush_lifts : Lifts unlimited flush := by
  intro _ s t h
  unfold flush at h
  split at h
  · next sink hstore =>
    cases h
    have hpending := Sink.store_unlimited hstore
    simp only [flush, unlimited, hpending]
  · cases h

theorem enqueue_lifts (data : Bytes) : Lifts unlimited (enqueue data) := by
  intro _ s t h
  unfold enqueue at h
  split at h
  · next hfits =>
    cases h
    exact if_pos hfits
  next hbig =>
  split at h
  · next sink hstore =>
    cases h
    have hdirect := Sink.store_unlimited hstore
    simp only [enqueue, unlimited, if_neg hbig, hdirect]
  · cases h

theorem put_lifts (data : Bytes) : Lifts unlimited (put data) := by
  have hrest : Lifts unlimited
      (enqueue data >>= fun _ => modify fun s => { s with pos := s.pos + data.length }) := by
    refine (enqueue_lifts data).bind fun _ => ?_
    intro _ s t h
    cases h
    rfl
  intro a s t h
  show (if s.capacity - s.pending.size < data.length then _ else _ : EStateM _ _ _) s.unlimited = _
  have hput : (if s.capacity - s.pending.size < data.length then _ else _ : EStateM _ _ _) s =
      .ok a t := h
  split
  · next hfull =>
    rw [if_pos hfull] at hput
    exact (flush_lifts.bind fun _ => hrest) a s t hput
  · next hfits =>
    rw [if_neg hfits] at hput
    exact hrest a s t hput

theorem putAll_lifts (writes : List Bytes) : Lifts unlimited (putAll writes) := by
  induction writes with
  | nil => exact .pure ()
  | cons data rest ih => exact (put_lifts data).bind fun _ => ih

theorem close_unlimited {s : OutputStream} {sink : Sink} (h : s.close = (.ok (), sink)) :
    s.unlimited.close = (.ok (), sink.unlimited) := by
  unfold close at h
  split at h
  · next t ht =>
    obtain rfl : t.sink = sink := (Prod.mk.inj h).2
    simp only [close, flush_lifts () s t ht]
    rfl
  · cases (Prod.mk.inj h).1

end OutputStream

namespace Writer

def unlimited (w : Writer) : Writer := { w with out := w.out.unlimited }

theorem onStream_lifts {act : EStateM Error OutputStream α}
    (h : Lifts OutputStream.unlimited act) : Lifts unlimited (onStream act) := by
  intro a w w' hrun
  unfold onStream at hrun
  split at hrun
  · next value out hact =>
    cases hrun
    have hact' := h _ _ _ hact
    simp only [onStream, unlimited, hact']
  · cases hrun

theorem authorize_lifts (check : WriteOrder → Except Error Unit) (step : Nat) (kind : StepKind) :
    Lifts unlimited (authorize check step kind) := by
  intro found w w' h
  unfold authorize at h
  split at h
  · cases h
  next hcheck =>
  split at h
  · next hstep =>
    cases h
    simp only [authorize, unlimited, hcheck, hstep]
  · cases h

theorem mark_lifts (name : String) : Lifts unlimited (mark name) := by
  intro _ w w' h
  cases h
  rfl

theorem finish_lifts (step : Nat) : Lifts unlimited (finish step) := by
  intro _ w w' h
  cases h
  rfl

theorem writeStep_lifts (codec : Codec α) (step : Nat) (value : α) :
    Lifts unlimited (writeStep codec step value) := by
  refine (authorize_lifts _ step .scalar).bind fun found => (mark_lifts _).bind fun _ => ?_
  exact (onStream_lifts (OutputStream.putAll_lifts _)).bind fun _ => finish_lifts step

theorem putItems_lifts (codec : Codec α) (items : List α) (offsets : List Nat) :
    Lifts OutputStream.unlimited (putItems codec items offsets) := by
  induction items generalizing offsets with
  | nil => exact .pure _
  | cons item items ih =>
    intro found s t h
    obtain ⟨_, _, hget, hrest⟩ := bind_ok.mp h
    cases hget
    have hput := ((OutputStream.putAll_lifts _).bind fun _ => ih (s.pos :: offsets)) found s t hrest
    exact bind_ok.mpr ⟨_, _, rfl, hput⟩

theorem putBlock_lifts (codec : Codec α) (name : String) (items : List α) :
    Lifts unlimited (putBlock codec name items) := by
  intro _ w w' h
  rcases Option.eq_none_or_eq_some w.index with hindex | ⟨index, hindex⟩
  · rw [putBlock_none hindex] at h
    have hunlimited : w.unlimited.index = none := hindex
    rw [putBlock_none hunlimited]
    exact onStream_lifts (OutputStream.putAll_lifts _) _ w w' h
  · rw [putBlock_some hindex] at h
    have hunlimited : w.unlimited.index = some index := hindex
    rw [putBlock_some hunlimited]
    refine ((onStream_lifts (putItems_lifts codec items [])).bind fun offsets => ?_) _ w w' h
    intro _ w w' h
    cases h
    rfl

theorem writeItems_lifts (codec : Codec α) (step : Nat) (items : List α) :
    Lifts unlimited (writeItems codec step items) := by
  refine (authorize_lifts _ step .stream).bind fun found => ?_
  by_cases hempty : items.isEmpty = true
  · rw [if_pos hempty]
    exact .pure ()
  · rw [if_neg hempty]
    refine (mark_lifts _).bind fun _ => ?_
    exact (onStream_lifts (OutputStream.put_lifts _)).bind fun _ => putBlock_lifts codec _ items

theorem endStream_lifts (step : Nat) : Lifts unlimited (endStream step) := by
  refine (authorize_lifts _ step .stream).bind fun found => (mark_lifts _).bind fun _ => ?_
  exact (onStream_lifts (OutputStream.put_lifts _)).bind fun _ => finish_lifts step

theorem runCall_lifts (call : WriteCall) : Lifts unlimited (runCall call) := by
  cases call with
  | step type i value => exact writeStep_lifts type.codec i value
  | item type i value => exact writeItems_lifts type.codec i [value]
  | items type i values => exact writeItems_lifts type.codec i values
  | endStream i => exact endStream_lifts i
  | flush => exact onStream_lifts OutputStream.flush_lifts

theorem runCalls_lifts (calls : List WriteCall) : Lifts unlimited (runCalls calls) := by
  induction calls with
  | nil => exact .pure ()
  | cons call calls ih => exact (runCall_lifts call).bind fun _ => ih

-- ---------------------------------------------------------------------------
-- Opening and closing
-- ---------------------------------------------------------------------------

theorem openIndexed_unlimited {protocol : Protocol} {sink : Sink} {bufferSize : Nat} {w : Writer}
    (h : openIndexed protocol sink bufferSize = .ok w) :
    openIndexed protocol sink.unlimited bufferSize = .ok w.unlimited := by
  unfold openIndexed at h
  split at h
  · next offset hposition =>
    have hposition' : sink.unlimited.position = .ok offset := hposition
    unfold start at h
    split at h
    · next out hout =>
      cases h
      have hout' := OutputStream.putAll_lifts _ () _ _ hout
      simp only [openIndexed, hposition', start]
      rw [show OutputStream.open sink.unlimited bufferSize offset =
        (OutputStream.open sink bufferSize offset).unlimited from rfl, hout']
      rfl
    · cases h
  · cases h

theorem settle_inv {w w' : Writer} (h : settle w = .ok () w') :
    w.order.checkClose = .ok () := by
  cases hcheck : w.order.checkClose with
  | error error =>
    rw [settle_refused hcheck] at h
    cases h
  | ok _ => rfl

theorem putIndex_lifts : Lifts unlimited putIndex := by
  intro _ w w' h
  rcases Option.eq_none_or_eq_some w.index with hindex | ⟨index, hindex⟩
  · have hunlimited : w.unlimited.index = none := hindex
    rw [putIndex_none hindex] at h
    rw [putIndex_none hunlimited]
    cases h
    rfl
  · have hunlimited : w.unlimited.index = some index := hindex
    rw [putIndex_some hindex] at h
    rw [putIndex_some hunlimited]
    refine onStream_lifts (fun _ out out' hput => ?_) _ w w' h
    exact OutputStream.putAll_lifts (index.writes out.pos) _ out out' hput

theorem close_unlimited {w : Writer} {sink : Sink} (h : w.close = (.ok (), sink)) :
    w.order.complete = true ∧ w.unlimited.close = (.ok (), sink.unlimited) := by
  unfold close at h
  split at h
  · next w' hsettle =>
    have hcheck := settle_inv hsettle
    refine ⟨?_, ?_⟩
    · unfold WriteOrder.checkClose WriteOrder.refuse at hcheck
      split at hcheck
      · assumption
      · cases hcheck
    · have hcheck' : w.unlimited.order.checkClose = .ok () := hcheck
      rw [settle_run hcheck] at hsettle
      have hsettle' := (putIndex_lifts.bind fun _ => onStream_lifts OutputStream.flush_lifts)
        () w w' hsettle
      have hrun : settle w.unlimited = .ok () w'.unlimited :=
        (settle_run hcheck').trans hsettle'
      simp only [close, hrun]
      exact OutputStream.close_unlimited h
  · cases (Prod.mk.inj h).1

theorem pipe_of_openIndexed {protocol : Protocol} {sink : Sink} {bufferSize : Nat} {w : Writer}
    (h : openIndexed protocol sink bufferSize = .ok w) : sink.pipe = false := by
  unfold openIndexed Sink.position at h
  cases hpipe : sink.pipe with
  | false => rfl
  | true =>
    rw [hpipe] at h
    cases h

/-- Of every run of a writer with an index that is accepted to its end, it is known what the sink
holds behind it: what it held before, the parts that have been written, and their index. -/
theorem accepted {protocol : Protocol} {types : Nat → Ty} {calls : List WriteCall} {w₀ w₁ : Writer}
    {sink sink' : Sink} {bufferSize : Nat}
    (hopen : Writer.openIndexed protocol sink bufferSize = .ok w₀)
    (hfits : ∀ call ∈ calls, call.Fits types) (hrun : runCalls calls w₀ = .ok () w₁)
    (hclose : w₁.close = (.ok (), sink')) :
    ∃ parts, Script 0 parts calls ∧ Part.Fill protocol.steps parts ∧ Part.Typed types 0 parts ∧
      w₁.index = some (fileIndex protocol parts sink.bytes.length) ∧
      sink'.bytes = sink.bytes ++ fileBytes protocol parts ++
        ((fileIndex protocol parts sink.bytes.length).writes
          (sink.bytes ++ fileBytes protocol parts).length).flatten := by
  have hopen' := openIndexed_unlimited hopen
  have hpipe : sink.unlimited.pipe = false := pipe_of_openIndexed hopen'
  have hlimit : sink.unlimited.limit = none := rfl
  obtain ⟨w, hw, hopened⟩ := openIndexed_ok protocol hlimit hpipe bufferSize
  obtain rfl : w₀.unlimited = w := by simpa [hw] using hopen'.symm
  obtain ⟨hcomplete, hclose'⟩ := close_unlimited hclose
  have horder : w₀.order = { protocol } := hopened.order
  obtain ⟨parts, hscript, hfill, htyped⟩ := Script.of_runCalls hfits hrun hcomplete
  rw [horder] at hscript hfill htyped
  obtain ⟨w, sink'', hw, hclose'', hindex, hbytes⟩ := hopened.runs_indexed hfill hscript
  have hrun' := runCalls_lifts calls () w₀ w₁ hrun
  rw [hw] at hrun'
  cases hrun'
  rw [hclose'] at hclose''
  cases hclose''
  exact ⟨parts, hscript, hfill, htyped, hindex, hbytes⟩

end Writer

end TypedStream
