import TypedStream.Proofs.Intake
import TypedStream.Proofs.Landing
import TypedStream.Proofs.Order.Reading
import TypedStream.Proofs.Ty.Accepting

/-!
# Draining a stream

Reading a stream to its end takes finitely many turns, whatever bytes the input holds and however
the items are decoded, as long as decoding does not move the input backwards (`draining_ends`). A
block may announce more items than there are bytes, and the items may have none. With the decoders
of the format the loops come to what `Reader.fillItems` and `Copier.copyStream` compute.
-/

namespace TypedStream

theorem StepDecoder.forward_intake (source : Source) (decoder : StepDecoder α) (codec : Codec α) :
    (decoder.intake codec).Forward source :=
  ⟨InputStream.forward_exec _, fun _ => InputStream.forward_exec _⟩

-- ---------------------------------------------------------------------------
-- The decoders of the format
-- ---------------------------------------------------------------------------

theorem StepDecoder.length_of_many {type : Ty} (decoder : StepDecoder Value) {count : Nat}
    {s t : InputStream} {items : List Value}
    (h : (decoder.many type.codec count).exec s = .ok items t) : items.length = count := by
  obtain ⟨bytes, hrun⟩ := InputStream.exists_runAll_of_exec h
  cases decoder with
  | current =>
    have hnormal : type.codec.Normalizes False := Ty.normalizes_codec type False.elim
    exact hnormal.length hrun
  | legacy read => exact Decoder.length_of_times (Decoder.runAll_eq_ok.mp hrun)

theorem Reader.onInput_exec {act : EStateM Error InputStream α} {r r' : Reader InputStream}
    {value : α} (h : onInput act r = .ok value r') : ∃ input, act r.input = .ok value input := by
  unfold onInput at h
  split at h
  · next input hact =>
    cases h
    exact ⟨input, hact⟩
  · cases h

section
variable (type : Ty) (decoder : StepDecoder Value) (step : Nat)

theorem Reader.fill_fillItems {max room : Nat} {found : List Value} (r : Reader InputStream)
    (hroom : max - found.length = room) :
    Halts ((decoder.intake type.codec).fill max · found r)
      (fillItems type.codec decoder room found r) := by
  fun_induction fillItems type.codec decoder room found r with
  | case1 room found r hdone =>
    refine halts_loop_stop (.of_some fun _ => ?_)
    rw [Intake.fillTurn, if_pos (by omega)]
  | case2 room found r hgo now error r₁ hfails =>
    refine halts_loop_stop (.of_some fun _ => ?_)
    have hfails : onInput ((decoder.intake type.codec).many now) r = .error error r₁ := hfails
    simp only [Intake.fillTurn, hroom]
    rw [if_neg (by omega), hfails]
  | case3 room found r hgo now items r₁ hitems error r₂ hfails =>
    refine halts_loop_stop (.of_some fun _ => ?_)
    have hitems : onInput ((decoder.intake type.codec).many now) r = .ok items r₁ := hitems
    simp only [Intake.fillTurn, hroom]
    rw [if_neg (by omega), hitems]
    simp only [now, hfails]
  | case4 room found r hgo now items r₁ hitems r₂ hblock ih =>
    have hlength : items.length = now := by
      obtain ⟨input, hexec⟩ := onInput_exec hitems
      exact decoder.length_of_many hexec
    have hitems : onInput ((decoder.intake type.codec).many now) r = .ok items r₁ := hitems
    refine halts_loop_again (.of_some fun _ => ?_) (ih (by rw [List.length_append]; omega))
    simp only [Intake.fillTurn, hroom]
    rw [if_neg (by omega), hitems]
    simp only [now, hblock]

theorem Reader.readBatch_eq (codec : Codec α) (decoder : StepDecoder α) (max : Nat)
    (r : Reader InputStream) :
    readBatch codec decoder step max r =
      if max = 0 then .error .zeroCapacity r
      else
        match enter step r with
        | .error error r => .error error r
        | .ok .finished r => .ok none r
        | .ok .proceed r => Intake.report step (fillItems codec decoder max [] r) := by
  simp only [readBatch, readItems, enter, bind, EStateM.bind]
  by_cases hmax : max = 0
  · simp only [if_pos hmax]
  simp only [if_neg hmax]
  cases authorize step .stream r with
  | error => rfl
  | ok _ r =>
    dsimp only
    cases beginStream step r with
    | error => rfl
    | ok turn r =>
      cases turn with
      | finished => rfl
      | proceed =>
        dsimp only [EStateM.bind]
        cases ensureBlock r with
        | error => rfl
        | ok _ r =>
          dsimp only [pure, EStateM.pure]
          rcases fillItems codec decoder max [] r with ⟨_ | _, items⟩
          · simp only [Intake.report]
            cases (endBatch step items _).1 <;> rfl
          · rfl

theorem Reader.readBatch_readBatch (max : Nat) (r : Reader InputStream) :
    Halts ((decoder.intake type.codec).readBatch step max · r)
      (readBatch type.codec decoder step max r) := by
  rw [readBatch_eq]
  simp only [Intake.readBatch]
  by_cases hmax : max = 0
  · simp only [if_pos hmax]
    exact .of_some fun _ => rfl
  simp only [if_neg hmax]
  cases enter step r with
  | error error r => exact .of_some fun _ => rfl
  | ok turn r =>
    cases turn with
    | finished => exact .of_some fun _ => rfl
    | proceed => exact (fill_fillItems type decoder r (Nat.sub_zero max)).map _

theorem Copier.copy_copyItems (copied : Nat) (r : Reader InputStream) (w : Writer) :
    Halts (copy (fun _ r => some ((decoder.intake type.codec).readItem step r))
        (Writer.writeItem type.codec step) (fun _ => 1) · copied { reader := r, writer := w })
      (copyItems type.codec decoder step copied r w) := by
  rw [← Reader.readItem_eq]
  fun_induction copyItems type.codec decoder step copied r w with
  | case1 copied r w error r' hread =>
    refine halts_loop_stop (.of_some fun _ => ?_)
    simp only [hread, Option.map_some, pass]
  | case2 copied r w r' hread =>
    refine halts_loop_stop (.of_some fun _ => ?_)
    simp only [hread, Option.map_some, pass]
  | case3 copied r w item r' hread error w' hwrite =>
    refine halts_loop_stop (.of_some fun _ => ?_)
    simp only [hread, Option.map_some, pass, hwrite]
  | case4 copied r w item r' hread w' hwrite ih =>
    refine halts_loop_again (.of_some fun _ => ?_) ih
    simp only [hread, Option.map_some, pass, hwrite]

theorem Copier.copy_copyBatches (buffer copied : Nat) (r : Reader InputStream) (w : Writer) :
    Halts (copy ((decoder.intake type.codec).readBatch step buffer)
        (Writer.writeItems type.codec step) List.length · copied { reader := r, writer := w })
      (copyBatches type.codec decoder step buffer copied r w) := by
  have hturn := fun copied r w => (Reader.readBatch_readBatch type decoder step buffer r).map
    (pass (Writer.writeItems type.codec step) List.length copied w)
  fun_induction copyBatches type.codec decoder step buffer copied r w with
  | case1 copied r w error r' hread =>
    refine halts_loop_stop ?_
    simpa only [hread, pass] using hturn copied r w
  | case2 copied r w r' hread =>
    refine halts_loop_stop ?_
    simpa only [hread, pass] using hturn copied r w
  | case3 copied r w items r' hread error w' hwrite =>
    refine halts_loop_stop ?_
    simpa only [hread, pass, hwrite] using hturn copied r w
  | case4 copied r w items r' hread w' hwrite ih =>
    refine halts_loop_again ?_ ih
    simpa only [hread, pass, hwrite] using hturn copied r w

end

-- ---------------------------------------------------------------------------
-- Whole drains
-- ---------------------------------------------------------------------------

theorem Reader.open_upon {source : Source} {protocol : Protocol} {bufferSize offset : Nat}
    {r : Reader InputStream}
    (h : Reader.open protocol (InputStream.open source bufferSize offset) = .ok r) :
    r.input.Upon source := by
  unfold Reader.open at h
  split at h
  · cases h
  next header input hheader =>
  split at h
  · cases h
  cases h
  have hchunk := Source.chunk_of_header hheader
  have hopened : (InputStream.open source bufferSize offset).Upon source :=
    (InputStream.stationed_open hchunk bufferSize).toUpon.at offset
  exact (InputStream.forward_exec _ hopened hheader).1

theorem Reader.after_upon {source : Source} {r : Reader InputStream} (h : r.input.Upon source)
    (calls : List ReadCall) : (after calls r).input.Upon source := by
  induction calls generalizing r with
  | nil => exact h
  | cons call calls ih => exact ih (reply_upon h call)

/-- Opening a block that is not empty costs a byte, even if the items have none. -/
theorem Reader.nextBlock_costs {r r' : Reader InputStream} (h : nextBlock r = .ok () r')
    (hopen : r'.remaining ≠ 0) : ByteInput.left r'.input < ByteInput.left r.input := by
  unfold nextBlock at h
  split at h
  · next count input hcount =>
    cases h
    refine (left_tryVarint hcount).2 ?_
    rintro rfl
    exact hopen rfl
  · cases h

/-- Reading the stream from the reader on comes to an end: each read that delivers something and
each turn that goes on leaves less to read, and the loops halt, with a full batch, at the end of the
stream or with an error. -/
structure Intake.Drains (intake : Intake α) (source : Source) (step : Nat)
    (r : Reader InputStream) : Prop where
  item {item r'} : intake.readItem step r = .ok (some item) r' → r'.Behind r
  batch {max items r'} : Halts (intake.readBatch step max · r) (.ok (some items) r') → r'.Behind r
  turn {max found found' r'} : intake.fillTurn max (found, r) = .again (found', r') → r'.Behind r
  block {r'} : Reader.nextBlock r = .ok () r' → r'.remaining ≠ 0 →
    ByteInput.left r'.input < ByteInput.left r.input
  fill (max found) : ∃ outcome, Halts (intake.fill max · found r) outcome ∧
    Filled source max found r outcome
  copy (codec buffer writer) : ∃ outcome,
    Halts (intake.copyLoop codec step buffer · { reader := r, writer }) outcome ∧
    Copier.Ended source step outcome

theorem Intake.Forward.drains {source : Source} {intake : Intake α} (h : intake.Forward source)
    {r : Reader InputStream} (hr : r.input.Upon source) (step : Nat) :
    intake.Drains source step r where
  item hread := by
    have hdraws : Draws source step r (intake.readItem step r) := readItem_draws h hr
    rw [hread] at hdraws
    exact hdraws.2
  batch {max items r'} hread := by
    obtain ⟨result, hhalts, hdraws⟩ := readBatch_draws h hr step max
    rw [← hread.unique hhalts] at hdraws
    exact hdraws.2
  turn hturn := (fillTurn_again h hr hturn).2
  block := Reader.nextBlock_costs
  fill := fill_halts h hr
  copy codec buffer writer := copyLoop_halts h codec step buffer (c := { reader := r, writer }) hr

theorem Copier.copyStream_eq (codec : Codec α) (decoder : StepDecoder α) (step buffer : Nat)
    (c : Copier InputStream) :
    copyStream codec decoder step buffer c =
      finish step (if 1 < buffer then copyBatches codec decoder step buffer 0 c.reader c.writer
        else copyItems codec decoder step 0 c.reader c.writer) := by
  unfold copyStream
  dsimp only
  generalize (if 1 < buffer then _ else _ : EStateM.Result Error (Copier InputStream) Nat) = result
  cases result with
  | error error c => rfl
  | ok copied c =>
    cases hend : c.writer.endStream step <;> simp only [finish, hend]

theorem Intake.copyLoop_copyStream (type : Ty) (decoder : StepDecoder Value) (step buffer : Nat)
    (c : Copier InputStream) : ∃ outcome,
      Halts ((decoder.intake type.codec).copyLoop type.codec step buffer · c) outcome ∧
      Copier.copyStream type.codec decoder step buffer c = Copier.finish step outcome := by
  rw [Copier.copyStream_eq]
  unfold copyLoop
  by_cases hbuffer : 1 < buffer
  · simp only [if_pos hbuffer]
    exact ⟨_, Copier.copy_copyBatches type decoder step buffer 0 c.reader c.writer, rfl⟩
  · simp only [if_neg hbuffer]
    exact ⟨_, Copier.copy_copyItems type decoder step 0 c.reader c.writer, rfl⟩

/-- Whatever is on the device, a stream of it that is read by programs that move forward comes to
an end, from every state that calls lead to; no bound on counts or sizes is needed. The decoders of
the format move forward, and with them the loops are those that are run. -/
theorem draining_ends (source : Source) :
    (∀ {protocol bufferSize offset r₀},
      Reader.open protocol (InputStream.open source bufferSize offset) = .ok r₀ →
        ∀ calls, (Reader.after calls r₀).input.Upon source) ∧
    (∀ {α : Type} {intake : Intake α}, intake.Forward source →
      ∀ r : Reader InputStream, r.input.Upon source →
        ∀ step, intake.Drains source step r) ∧
    ∀ (type : Ty) (decoder : StepDecoder Value),
      (decoder.intake type.codec).Forward source ∧
      (∀ max r, Halts ((decoder.intake type.codec).fill max · [] r)
        (Reader.fillItems type.codec decoder max [] r)) ∧
      ∀ step buffer c, ∃ outcome,
        Halts ((decoder.intake type.codec).copyLoop type.codec step buffer · c) outcome ∧
        Copier.copyStream type.codec decoder step buffer c = Copier.finish step outcome := by
  refine ⟨fun hopen calls => Reader.after_upon (Reader.open_upon hopen) calls,
    fun hintake r hr step => hintake.drains hr step, fun type decoder =>
    ⟨decoder.forward_intake source type.codec, fun max r => ?_,
      Intake.copyLoop_copyStream type decoder⟩⟩
  exact Reader.fill_fillItems type decoder r (Nat.sub_zero max)

/-- Decoding may take up no bytes at all, not even where there are none: here it only looks whether
the input has ended. Behind the label stands the count of a block of as many items as can be. -/
theorem draining_ends_peeking :
    let source := Source.ofBytes (Header.bytes Ticks.protocol.schema ++
      [1, 255, 255, 255, 255, 255, 255, 255, 255, 255, 1])
    let intake := Intake.single InputStream.atEnd
    ∃ r₀, Reader.open Ticks.protocol (InputStream.open source 0 0) = .ok r₀ ∧
      let r := Reader.after [.step .bool .current 0] r₀
      r.input.Upon source ∧ intake.Forward source ∧ intake.Drains source 1 r := by
  intro source intake
  have hahead := InputStream.ahead_ofBytes (Header.bytes Ticks.protocol.schema ++
    [1, 255, 255, 255, 255, 255, 255, 255, 255, 255, 1]) 0 0
  obtain ⟨r₀, hopen, -⟩ := Reader.open_run (by decide) hahead
  obtain ⟨hreached, hdrains, -⟩ := draining_ends source
  have hr := hreached hopen [.step .bool .current 0]
  have hintake : intake.Forward source := Intake.forward_single InputStream.forward_atEnd
  exact ⟨r₀, hopen, hr, hintake, hdrains hintake _ hr 1⟩

end TypedStream
