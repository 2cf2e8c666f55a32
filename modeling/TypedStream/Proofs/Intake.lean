import TypedStream.Copy
import TypedStream.Proofs.Input.Forward
import TypedStream.Proofs.Loops

/-!
# Loops over the items of a stream

The loops that fill a batch and that copy a stream, turn by turn, for items that any programs take
off the input. As long as these move forward, a turn that does not stop its loop leaves less to read
(`Reader.toRead`): fewer bytes, or as many bytes and fewer items of the open block. An item need not
take up any bytes; a block that is not empty costs one for its count. So the loops halt
(`Intake.fill_halts`, `Intake.copyLoop_halts`).
-/

namespace TypedStream

open InputStream (Forward)

/-- The programs that take the items of a stream off the input, one by one and so many at once. They
may do whatever can be done with an input: also seek, look for the end, or go on after a failure. -/
structure Intake (α : Type) where
  one : EStateM Error InputStream α
  many : Nat → EStateM Error InputStream (List α)

/-- Runs go item by item. -/
def Intake.single (one : EStateM Error InputStream α) : Intake α := ⟨one, repeated one⟩

structure Intake.Forward (source : Source) (intake : Intake α) : Prop where
  one : InputStream.Forward source intake.one
  many : ∀ count, InputStream.Forward source (intake.many count)

theorem Intake.forward_single {source : Source} {one : EStateM Error InputStream α}
    (h : InputStream.Forward source one) : (single one).Forward source :=
  ⟨h, h.repeated⟩

-- ---------------------------------------------------------------------------
-- Opening a block
-- ---------------------------------------------------------------------------

namespace Reader

theorem wellFounded_behind {σ : Type} [ByteInput σ] :
    WellFounded (Behind : Reader σ → Reader σ → Prop) :=
  InvImage.wf toRead (Prod.lex Nat.lt_wfRel Nat.lt_wfRel).wf

/-- There is not more left to read than for the other reader. -/
def AtMost {σ : Type} [ByteInput σ] (r s : Reader σ) : Prop :=
  ByteInput.left r.input < ByteInput.left s.input ∨
    ByteInput.left r.input = ByteInput.left s.input ∧ r.remaining ≤ s.remaining

theorem Behind.trans_atMost {σ : Type} [ByteInput σ] {r s t : Reader σ} (h : r.Behind s)
    (h' : s.AtMost t) : r.Behind t := by
  rw [behind_iff] at h ⊢
  unfold AtMost at h'
  omega

/-- Behind the stream, also if its end has not been reported. -/
def Past {σ : Type} (r : Reader σ) (step : Nat) : Prop :=
  r.order.place = .at (step + 1) ∨ r.order.place = .drained step

/-- What reads of a stream begin with: the call is in order, and a block is open unless there is
none. -/
def enter {σ : Type} [ByteInput σ] (step : Nat) : EStateM Error (Reader σ) StreamRead := do
  authorize step .stream
  match ← beginStream step with
  | .finished => return .finished
  | .proceed => do
    ensureBlock
    return .proceed

section
variable {source : Source} {r r' : Reader InputStream} {step : Nat}

theorem ensureBlock_upon (h : ensureBlock r = .ok () r') (hr : r.input.Upon source) :
    r'.input.Upon source := by
  unfold ensureBlock at h
  split at h
  · unfold nextBlock at h
    split at h
    · next count input hcount =>
      cases h
      exact (InputStream.forward_tryVarint hr hcount).1
    · cases h
  · cases h
    exact hr

theorem ensureBlock_atMost (h : ensureBlock r = .ok () r') : r'.AtMost r := by
  unfold AtMost
  rcases ensureBlock_ok h with ⟨-, rfl⟩ | ⟨hzero, hle, hlt⟩
  · exact .inr ⟨rfl, Nat.le_refl _⟩
  · by_cases hopen : r'.remaining = 0
    · omega
    · exact .inl (hlt hopen)

theorem onInput_forward {act : EStateM Error InputStream α} (hact : Forward source act)
    (hr : r.input.Upon source) {value : α} (h : onInput act r = .ok value r') :
    r'.input.Upon source ∧ ByteInput.left r'.input ≤ ByteInput.left r.input ∧
      r'.remaining = r.remaining := by
  unfold onInput at h
  split at h
  · next found input hfound =>
    cases h
    exact ⟨(hact hr hfound).1, hact.left_le hr hfound, rfl⟩
  · cases h

theorem beginStream_finished (h : beginStream step r = .ok .finished r') :
    r'.order.place = .at (step + 1) := by
  unfold beginStream at h
  split at h
  · next order hbegin =>
    cases h
    unfold ReadOrder.beginStream at hbegin
    split at hbegin
    · split at hbegin <;> cases hbegin
    · split at hbegin
      · cases hbegin
        rfl
      · split at hbegin <;> cases hbegin
  · cases h

theorem enter_ok {turn : StreamRead} (hr : r.input.Upon source) (h : enter step r = .ok turn r') :
    r'.input.Upon source ∧ r'.AtMost r ∧ (turn = .finished → r'.Past step) := by
  obtain ⟨⟨⟩, r₁, hallowed, h⟩ := bind_ok.mp h
  cases authorize_ok hallowed
  obtain ⟨turn, r₂, hbegin, h⟩ := bind_ok.mp h
  obtain ⟨hinput, hremaining⟩ := beginStream_ok hbegin
  have hr₂ : r₂.input.Upon source := by rwa [hinput]
  cases turn with
  | finished =>
    obtain ⟨rfl, rfl⟩ := pure_ok.mp h
    refine ⟨hr₂, .inr ?_, fun _ => .inl (beginStream_finished hbegin)⟩
    rw [hinput, hremaining]
    exact ⟨rfl, Nat.le_refl _⟩
  | proceed =>
    obtain ⟨⟨⟩, r₃, hblock, h⟩ := bind_ok.mp h
    obtain ⟨rfl, rfl⟩ := pure_ok.mp h
    have hatMost := ensureBlock_atMost hblock
    refine ⟨ensureBlock_upon hblock hr₂, ?_, fun hfinished => absurd hfinished (by simp)⟩
    unfold AtMost at hatMost ⊢
    rwa [hinput, hremaining] at hatMost

end

end Reader

-- ---------------------------------------------------------------------------
-- Reads
-- ---------------------------------------------------------------------------

namespace Intake

open Reader (onInput authorize beginScalar ensureBlock enter endBatch Behind)

def readStep (intake : Intake α) (step : Nat) : EStateM Error (Reader InputStream) α := do
  authorize step .scalar
  beginScalar step
  let value ← onInput intake.one
  modify fun r => { r with order := r.order.finish step }
  return value

def takeItem (intake : Intake α) (step : Nat) : EStateM Error (Reader InputStream) (Option α) :=
  fun r =>
    if r.remaining = 0 then .ok none { r with order := r.order.finish step }
    else
      match onInput intake.one r with
      | .ok item r => .ok (some item) { r with remaining := r.remaining - 1 }
      | .error error r => .error error r

def readItem (intake : Intake α) (step : Nat) : EStateM Error (Reader InputStream) (Option α) := do
  match ← enter step with
  | .finished => return none
  | .proceed => intake.takeItem step

/-- One turn of the loop that fills a batch: items of the open block, as many as there is room for,
and if it has no more, the count of the next block. -/
def fillTurn (intake : Intake α) (max : Nat) : List α × Reader InputStream →
    Turn (List α × Reader InputStream)
      (EStateM.Result Error (Reader InputStream) Unit × List α)
  | (found, r) =>
    if max ≤ found.length ∨ r.remaining = 0 then .stop (.ok () r, found)
    else
      let now := min r.remaining (max - found.length)
      match onInput (intake.many now) r with
      | .error error r => .stop (.error error r, found)
      | .ok items r =>
        match ensureBlock { r with remaining := r.remaining - now } with
        | .error error r => .stop (.error error r, found ++ items)
        | .ok () r => .again (found ++ items, r)

def fill (intake : Intake α) (max turns : Nat) (found : List α) (r : Reader InputStream) :
    Option (EStateM.Result Error (Reader InputStream) Unit × List α) :=
  loop (fun _ state => some (intake.fillTurn max state)) turns (found, r)

/-- What a batch read reports of the items it has found. -/
def report (step : Nat) : EStateM.Result Error (Reader InputStream) Unit × List α →
    EStateM.Result Error (Reader InputStream) (Option (List α))
  | (.error error r, _) => .error error r
  | (.ok () r, items) =>
    let (more, r) := endBatch step items r
    .ok (if more then some items else none) r

def readBatch (intake : Intake α) (step max turns : Nat) (r : Reader InputStream) :
    Option (EStateM.Result Error (Reader InputStream) (Option (List α))) :=
  if max = 0 then some (.error .zeroCapacity r)
  else
    match enter step r with
    | .error error r => some (.error error r)
    | .ok .finished r => some (.ok none r)
    | .ok .proceed r => (intake.fill max turns [] r).map (report step)

section
variable {source : Source} {intake : Intake α} {r r' : Reader InputStream} {step max : Nat}

/-- What a read of a stream step comes to: it delivers something, and less is left to read, or the
stream has ended, or it fails. -/
def Draws (source : Source) (step : Nat) (r : Reader InputStream) :
    EStateM.Result Error (Reader InputStream) (Option β) → Prop
  | .ok (some _) r' => r'.input.Upon source ∧ r'.Behind r
  | .ok none r' => r'.input.Upon source ∧ r'.Past step
  | .error _ _ => True

theorem readItem_draws (h : intake.Forward source) (hr : r.input.Upon source) :
    Draws source step r (intake.readItem step r) := by
  cases hread : intake.readItem step r with
  | error => trivial
  | ok found r' =>
    obtain ⟨turn, r₁, henter, hread⟩ := bind_ok.mp hread
    obtain ⟨hr₁, hatMost, hpast⟩ := Reader.enter_ok hr henter
    cases turn with
    | finished =>
      obtain ⟨rfl, rfl⟩ := pure_ok.mp hread
      exact ⟨hr₁, hpast rfl⟩
    | proceed =>
      simp only [takeItem] at hread
      split at hread
      · cases hread
        exact ⟨hr₁, .inl rfl⟩
      next hopen =>
      split at hread
      · next item r₂ hitem =>
        cases hread
        obtain ⟨hr₂, hle, hsame⟩ := Reader.onInput_forward h.one hr₁ hitem
        refine ⟨hr₂, Reader.Behind.trans_atMost (Reader.behind_iff.mpr ?_) hatMost⟩
        dsimp only
        omega
      · cases hread

theorem fillTurn_again (h : intake.Forward source) (hr : r.input.Upon source)
    {found found' : List α} (hturn : intake.fillTurn max (found, r) = .again (found', r')) :
    r'.input.Upon source ∧ r'.Behind r := by
  simp only [fillTurn] at hturn
  split at hturn
  · cases hturn
  next hgo =>
  split at hturn
  · cases hturn
  next items r₁ hitems =>
  split at hturn
  · cases hturn
  next r₂ hblock =>
  cases hturn
  obtain ⟨hr₁, hle, hsame⟩ := Reader.onInput_forward (h.many _) hr hitems
  refine ⟨Reader.ensureBlock_upon hblock hr₁, ?_⟩
  have hatMost := Reader.ensureBlock_atMost hblock
  rw [Reader.behind_iff]
  unfold Reader.AtMost at hatMost
  dsimp only at hatMost
  omega

/-- The batch is full, or the stream has no more items, or a read has failed. -/
def Filled (source : Source) (max : Nat) (found : List α) (r : Reader InputStream) :
    EStateM.Result Error (Reader InputStream) Unit × List α → Prop
  | (.ok () r', items) => r'.input.Upon source ∧ (max ≤ items.length ∨ r'.remaining = 0) ∧
      (items = found ∧ r' = r ∨ r'.Behind r)
  | (.error _ _, _) => True

theorem fill_halts (h : intake.Forward source) (hr : r.input.Upon source) (max : Nat)
    (found : List α) :
    ∃ outcome, Halts (intake.fill max · found r) outcome ∧
      Filled source max found r outcome := by
  refine exists_halts_loop
    (P := fun (items, r') => r'.input.Upon source ∧ (items = found ∧ r' = r ∨ r'.Behind r))
    (R := InvImage Behind Prod.snd) (InvImage.wf _ Reader.wellFounded_behind) ?_ (found, r)
    ⟨hr, .inl ⟨rfl, rfl⟩⟩
  rintro ⟨items, s⟩ ⟨hs, hbehind⟩
  refine ⟨intake.fillTurn max (items, s), .of_some fun _ => rfl, ?_⟩
  cases hturn : intake.fillTurn max (items, s) with
  | again next =>
    obtain ⟨items', s'⟩ := next
    obtain ⟨hs', hless⟩ := fillTurn_again h hs hturn
    refine ⟨⟨hs', .inr ?_⟩, hless⟩
    rcases hbehind with ⟨-, rfl⟩ | hbehind
    · exact hless
    · rw [Reader.behind_iff] at *
      omega
  | stop outcome =>
    simp only [fillTurn] at hturn
    split at hturn
    · next hdone =>
      cases hturn
      exact ⟨hs, hdone, hbehind⟩
    · split at hturn
      · cases hturn
        trivial
      · split at hturn <;> cases hturn
        trivial

theorem report_draws (hmax : max ≠ 0) {r₀ : Reader InputStream} (hatMost : r.AtMost r₀)
    {outcome : EStateM.Result Error (Reader InputStream) Unit × List α}
    (hfilled : Filled source max [] r outcome) : Draws source step r₀ (report step outcome) := by
  obtain ⟨_ | _, items⟩ := outcome
  · next r' =>
    obtain ⟨hr', hfull, hbehind⟩ := hfilled
    simp only [report, endBatch]
    split
    · cases items with
      | nil => exact ⟨hr', .inr rfl⟩
      | cons item items =>
        have hbehind := hbehind.resolve_left fun h => List.cons_ne_nil _ _ h.1
        exact ⟨hr', hbehind.trans_atMost hatMost⟩
    · next hopen =>
      refine ⟨hr', Reader.Behind.trans_atMost (hbehind.resolve_left ?_) hatMost⟩
      rintro ⟨rfl, -⟩
      rw [List.length_nil] at hfull
      omega
  · trivial

theorem readBatch_draws (h : intake.Forward source) (hr : r.input.Upon source) (step max : Nat) :
    ∃ result, Halts (intake.readBatch step max · r) result ∧ Draws source step r result := by
  by_cases hmax : max = 0
  · exact ⟨.error .zeroCapacity r, .of_some fun _ => by rw [readBatch, if_pos hmax], trivial⟩
  cases henter : enter step r with
  | error error r₁ =>
    refine ⟨.error error r₁, .of_some fun _ => ?_, trivial⟩
    rw [readBatch, if_neg hmax, henter]
  | ok turn r₁ =>
    obtain ⟨hr₁, hatMost, hpast⟩ := Reader.enter_ok hr henter
    cases turn with
    | finished =>
      refine ⟨.ok none r₁, .of_some fun _ => ?_, hr₁, hpast rfl⟩
      rw [readBatch, if_neg hmax, henter]
    | proceed =>
      obtain ⟨outcome, hhalts, hfilled⟩ := fill_halts h hr₁ max []
      refine ⟨report step outcome, ?_, report_draws hmax hatMost hfilled⟩
      simp only [readBatch, if_neg hmax, henter]
      exact hhalts.map _

end

end Intake

-- ---------------------------------------------------------------------------
-- The decoders of the format
-- ---------------------------------------------------------------------------

def StepDecoder.intake (decoder : StepDecoder α) (codec : Codec α) : Intake α where
  one := (decoder.one codec).exec
  many count := (decoder.many codec count).exec

section
variable (codec : Codec α) (decoder : StepDecoder α) (step : Nat)

theorem Reader.readStep_eq : readStep codec decoder step = (decoder.intake codec).readStep step :=
  rfl

theorem Reader.takeItem_eq : takeItem codec decoder step = (decoder.intake codec).takeItem step := by
  funext r
  simp only [takeItem, Intake.takeItem, StepDecoder.intake]
  split
  · rfl
  · cases onInput (decoder.one codec).exec r <;> rfl

theorem Reader.readItem_eq : readItem codec decoder step = (decoder.intake codec).readItem step := by
  simp only [readItem, Intake.readItem, enter, bind_assoc]
  refine bind_congr fun _ => bind_congr fun turn => ?_
  cases turn with
  | finished => rfl
  | proceed => simp only [bind_assoc, pure_bind, takeItem_eq]

end

-- ---------------------------------------------------------------------------
-- Copies
-- ---------------------------------------------------------------------------

namespace Copier

/-- What a copy makes of what it has read: it is written, and the copy goes on. -/
def pass (write : β → EStateM Error Writer Unit) (size : β → Nat) (copied : Nat) (writer : Writer) :
    EStateM.Result Error (Reader InputStream) (Option β) →
    Turn (Nat × Copier InputStream) (EStateM.Result Error (Copier InputStream) Nat)
  | .error error reader => .stop (.error error { reader, writer })
  | .ok none reader => .stop (.ok copied { reader, writer })
  | .ok (some found) reader =>
    match write found writer with
    | .error error writer => .stop (.error error { reader, writer })
    | .ok () writer => .again (copied + size found, { reader, writer })

def copy (read : Nat → Reader InputStream →
      Option (EStateM.Result Error (Reader InputStream) (Option β)))
    (write : β → EStateM Error Writer Unit) (size : β → Nat) (turns copied : Nat)
    (c : Copier InputStream) : Option (EStateM.Result Error (Copier InputStream) Nat) :=
  loop (fun turns (copied, c) => (read turns c.reader).map (pass write size copied c.writer))
    turns (copied, c)

/-- Ends the stream on the writer. -/
def finish (step : Nat) : EStateM.Result Error (Copier InputStream) Nat →
    EStateM.Result Error (Copier InputStream) Nat
  | .error error c => .error error c
  | .ok copied c =>
    match c.writer.endStream step with
    | .error error writer => .error error { c with writer }
    | .ok () writer => .ok copied { c with writer }

/-- The copy has failed or has come to the end of the stream. -/
def Ended (source : Source) (step : Nat) : EStateM.Result Error (Copier InputStream) Nat → Prop
  | .ok _ c => c.reader.input.Upon source ∧ c.reader.Past step
  | .error _ _ => True

theorem copy_halts {source : Source} {step : Nat} {read : Nat → Reader InputStream →
      Option (EStateM.Result Error (Reader InputStream) (Option β))}
    (hread : ∀ r : Reader InputStream, r.input.Upon source →
      ∃ result, Halts (read · r) result ∧ Intake.Draws source step r result)
    (write : β → EStateM Error Writer Unit) (size : β → Nat) (copied : Nat)
    {c : Copier InputStream} (hc : c.reader.input.Upon source) :
    ∃ outcome, Halts (copy read write size · copied c) outcome ∧ Ended source step outcome := by
  refine exists_halts_loop
    (P := fun (_, c) => c.reader.input.Upon source)
    (R := InvImage Reader.Behind fun (_, c) => c.reader) (InvImage.wf _ Reader.wellFounded_behind)
    ?_ (copied, c) hc
  rintro ⟨copied, c⟩ hc
  obtain ⟨result, hhalts, hdraws⟩ := hread c.reader hc
  refine ⟨pass write size copied c.writer result, hhalts.map _, ?_⟩
  rcases result with ⟨_ | found, reader⟩ | _
  · exact hdraws
  · simp only [pass]
    split
    · trivial
    · exact hdraws
  · trivial

end Copier

/-- The loop of a stream copy, in batches if the buffer has room for them. -/
def Intake.copyLoop (intake : Intake α) (codec : Codec α) (step buffer turns : Nat)
    (c : Copier InputStream) : Option (EStateM.Result Error (Copier InputStream) Nat) :=
  if 1 < buffer then
    Copier.copy (intake.readBatch step buffer) (Writer.writeItems codec step) List.length turns 0 c
  else
    Copier.copy (fun _ r => some (intake.readItem step r)) (Writer.writeItem codec step)
      (fun _ => 1) turns 0 c

theorem Intake.copyLoop_halts {source : Source} {intake : Intake α} (h : intake.Forward source)
    (codec : Codec α) (step buffer : Nat) {c : Copier InputStream}
    (hc : c.reader.input.Upon source) :
    ∃ outcome, Halts (intake.copyLoop codec step buffer · c) outcome ∧
      Copier.Ended source step outcome := by
  unfold copyLoop
  by_cases hbuffer : 1 < buffer
  · simp only [if_pos hbuffer]
    exact Copier.copy_halts (fun r hr => readBatch_draws h hr step buffer) _ _ 0 hc
  · simp only [if_neg hbuffer]
    exact Copier.copy_halts
      (fun r hr => ⟨_, .of_some fun _ => rfl, readItem_draws h hr⟩) _ _ 0 hc

end TypedStream
