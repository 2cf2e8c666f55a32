import TypedStream.Proofs.Delivery
import TypedStream.SensorLog

/-!
# Copying a stream

Copying reads what a decoder makes of the steps and writes it at once. Where the direct writing of
the same values succeeds, block by block of the buffer's size, copying succeeds and leaves the
writer in the same state (`Copier.copyStream_run`).
-/

namespace TypedStream

open SensorLog (chunks)

-- ---------------------------------------------------------------------------
-- Blocks
-- ---------------------------------------------------------------------------

theorem chunks_nil (size : Nat) : chunks size ([] : List α) = [] := by
  simp [chunks]

theorem chunks_ne {size : Nat} (hsize : 0 < size) {items : List α} (h : items ≠ []) :
    chunks size items = items.take size :: chunks size (items.drop size) := by
  rw [chunks, dif_neg]
  rintro (rfl | hnil)
  · exact Nat.lt_irrefl 0 hsize
  · exact h hnil

/-- Items of a stream step, one block after the other. -/
def Writer.writeAll (codec : Codec α) (step : Nat) : List (List α) → EStateM Error Writer Unit
  | [] => pure ()
  | block :: blocks => do
    writeItems codec step block
    writeAll codec step blocks

section
variable {σ : Type} [ByteInput σ] {r : Reader σ} {i : Nat} {codec : Codec α}
  {decoder : StepDecoder α} {w w' : Writer}

-- ---------------------------------------------------------------------------
-- One turn
-- ---------------------------------------------------------------------------

namespace Copier

theorem copyBatches_none {r' : Reader σ} {buffer copied : Nat}
    (hread : r.readBatch codec decoder i buffer = .ok none r') :
    copyBatches codec decoder i buffer copied r w = .ok copied { reader := r', writer := w } := by
  unfold copyBatches
  split <;> simp_all

theorem copyBatches_some {r' : Reader σ} {items : List α} {buffer copied : Nat}
    (hread : r.readBatch codec decoder i buffer = .ok (some items) r')
    (hwrite : w.writeItems codec i items = .ok () w') :
    copyBatches codec decoder i buffer copied r w =
      copyBatches codec decoder i buffer (copied + items.length) r' w' := by
  conv => lhs; unfold copyBatches
  split <;> simp_all

theorem copyItems_none {r' : Reader σ} {copied : Nat}
    (hread : r.readItem codec decoder i = .ok none r') :
    copyItems codec decoder i copied r w = .ok copied { reader := r', writer := w } := by
  unfold copyItems
  split <;> simp_all

theorem copyItems_some {r' : Reader σ} {item : α} {copied : Nat}
    (hread : r.readItem codec decoder i = .ok (some item) r')
    (hwrite : w.writeItem codec i item = .ok () w') :
    copyItems codec decoder i copied r w = copyItems codec decoder i (copied + 1) r' w' := by
  conv => lhs; unfold copyItems
  split <;> simp_all

end Copier

-- ---------------------------------------------------------------------------
-- Streams
-- ---------------------------------------------------------------------------

variable [Lossless σ] {protocol : Protocol} {name : String} {data : List (Datum type)}
  {values : List α} {stop : Nat} {tail : Bytes} {R : Datum type → α → Prop}

theorem Reader.readBatch_reads {max : Nat} (hmax : 0 < max)
    (hstep : protocol.steps[i]? = some ⟨name, .stream⟩)
    (h : r.Streaming protocol i data stop tail) (hreads : Datum.Reads R codec decoder)
    (hvalues : List.Forall₂ R data values) :
    (values = [] ∧
      ∃ r', readBatch codec decoder i max r = .ok none r' ∧ r'.Before protocol (i + 1) stop tail) ∨
    (values ≠ [] ∧
      ∃ r', readBatch codec decoder i max r = .ok (some (values.take max)) r' ∧
        r'.Streaming protocol i (data.drop max) stop tail) := by
  obtain ⟨r', hread, hstreaming, hbefore⟩ := readItems_reads hmax hstep h hreads hvalues []
  cases hvalues with
  | nil =>
    refine .inl ⟨rfl, r', ?_, hbefore rfl⟩
    rw [List.take_nil] at hread
    simp only [readBatch, hread, List.isEmpty_nil, Bool.not_true]
  | @cons datum value data values hvalue hvalues =>
    refine .inr ⟨List.cons_ne_nil _ _, r', ?_, hstreaming (List.cons_ne_nil _ _)⟩
    have hmore : (!((value :: values).take max).isEmpty) = true := by
      cases max with
      | zero => cases hmax
      | succ => rfl
    rw [hmore] at hread
    simp only [readBatch, hread]

namespace Copier

theorem copyBatches_run {buffer : Nat} (hbuffer : 0 < buffer)
    (hstep : protocol.steps[i]? = some ⟨name, .stream⟩)
    (h : r.Streaming protocol i data stop tail) (hreads : Datum.Reads R codec decoder)
    (hvalues : List.Forall₂ R data values)
    (hwrite : Writer.writeAll codec i (chunks buffer values) w = .ok () w') (copied : Nat) :
    ∃ r', copyBatches codec decoder i buffer copied r w =
        .ok (copied + values.length) { reader := r', writer := w' } ∧
      r'.Before protocol (i + 1) stop tail := by
  induction hlength : values.length using Nat.strongRecOn generalizing r w data values copied with
  | ind length ih =>
    rcases Reader.readBatch_reads hbuffer hstep h hreads hvalues with
      ⟨rfl, r₁, hread, hbefore⟩ | ⟨hne, r₁, hread, hstreaming⟩
    · rw [chunks_nil] at hwrite
      obtain ⟨-, rfl⟩ := pure_ok.mp hwrite
      exact ⟨r₁, by rw [copyBatches_none hread, ← hlength]; rfl, hbefore⟩
    · rw [chunks_ne hbuffer hne] at hwrite
      obtain ⟨⟨⟩, w₁, hfirst, hrest⟩ := bind_ok.mp hwrite
      have hpos := List.length_pos_iff.mpr hne
      obtain ⟨r', hcopy, hbefore⟩ := ih (values.drop buffer).length
        (by rw [List.length_drop]; omega) hstreaming (List.forall₂_drop buffer hvalues) hrest
        (copied + (values.take buffer).length) rfl
      refine ⟨r', ?_, hbefore⟩
      rw [copyBatches_some hread hfirst, hcopy, Nat.add_assoc, ← List.length_append,
        List.take_append_drop, hlength]

theorem copyItems_run (hstep : protocol.steps[i]? = some ⟨name, .stream⟩)
    (h : r.Streaming protocol i data stop tail) (hreads : Datum.Reads R codec decoder)
    (hvalues : List.Forall₂ R data values)
    (hwrite : Writer.writeAll codec i (chunks 1 values) w = .ok () w') (copied : Nat) :
    ∃ r', copyItems codec decoder i copied r w =
        .ok (copied + values.length) { reader := r', writer := w' } ∧
      r'.Before protocol (i + 1) stop tail := by
  induction hvalues generalizing r w copied with
  | nil =>
    obtain ⟨r₁, hread, -, hbefore⟩ := Reader.readItem_ended hstep h codec decoder
    rw [chunks_nil] at hwrite
    obtain ⟨-, rfl⟩ := pure_ok.mp hwrite
    exact ⟨r₁, copyItems_none hread, hbefore⟩
  | @cons datum value data values hvalue _ ih =>
    obtain ⟨r₁, hread, hstreaming⟩ := Reader.readItem_reads hstep h (hreads.one hvalue)
    rw [chunks_ne Nat.one_pos (List.cons_ne_nil _ _)] at hwrite
    obtain ⟨⟨⟩, w₁, hfirst, hrest⟩ := bind_ok.mp hwrite
    obtain ⟨r', hcopy, hbefore⟩ := ih hstreaming hrest (copied + 1)
    refine ⟨r', ?_, hbefore⟩
    rw [copyItems_some hread hfirst, hcopy, List.length_cons, Nat.add_right_comm, Nat.add_assoc]

/-- Copying a stream is writing it in blocks of the buffer's size, or of one item. -/
theorem copyStream_run {buffer : Nat} (hstep : protocol.steps[i]? = some ⟨name, .stream⟩)
    (h : r.Streaming protocol i data stop tail) (hreads : Datum.Reads R codec decoder)
    (hvalues : List.Forall₂ R data values) {w₁ : Writer}
    (hwrite : Writer.writeAll codec i (chunks (max 1 buffer) values) w = .ok () w₁)
    (hend : w₁.endStream i = .ok () w') :
    ∃ r', copyStream codec decoder i buffer { reader := r, writer := w } =
        .ok values.length { reader := r', writer := w' } ∧
      r'.Before protocol (i + 1) stop tail := by
  have hcopied : ∃ r', (if 1 < buffer then copyBatches codec decoder i buffer 0 r w
      else copyItems codec decoder i 0 r w) =
        .ok values.length { reader := r', writer := w₁ } ∧
      r'.Before protocol (i + 1) stop tail := by
    rw [← Nat.zero_add values.length]
    split
    · next hbuffer =>
      rw [Nat.max_eq_right (Nat.le_of_lt hbuffer)] at hwrite
      exact copyBatches_run (Nat.lt_trans Nat.one_pos hbuffer) hstep h hreads hvalues hwrite 0
    · next hbuffer =>
      rw [Nat.max_eq_left (Nat.le_of_not_lt hbuffer)] at hwrite
      exact copyItems_run hstep h hreads hvalues hwrite 0
  obtain ⟨r', hcopy, hbefore⟩ := hcopied
  exact ⟨r', by simp only [copyStream, hcopy, hend], hbefore⟩

theorem copyStep_run {datum : Datum type} {value : α} {pos : Nat}
    (hstep : protocol.steps[i]? = some ⟨name, .scalar⟩)
    (h : r.Before protocol i pos (datum.bytes ++ tail))
    (hread : (decoder.one codec).run (datum.bytes ++ tail) = .ok (value, tail))
    (hwrite : w.writeStep codec i value = .ok () w') :
    ∃ r', copyStep codec decoder i { reader := r, writer := w } =
        .ok () { reader := r', writer := w' } ∧
      r'.order = ⟨protocol, .at (i + 1)⟩ ∧
      r'.Before protocol (i + 1) (pos + datum.bytes.length) tail := by
  obtain ⟨r', hr', ho, hbefore⟩ := Reader.readStep_reads hstep h hread
  exact ⟨r', by simp only [copyStep, hr', hwrite], ho, hbefore⟩

end Copier

end

end TypedStream
