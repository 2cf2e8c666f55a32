import TypedStream.Proofs.FailedSeeks
import TypedStream.Proofs.Index.Loading
import TypedStream.Proofs.Input.Stationed
import TypedStream.Proofs.RandomAccess

/-!
# Where a seek lands

An index may have recorded any 64-bit word for a place. A seek to a place in the lower half of the
words leads there. The others pass for negative numbers, and a negative place is a distance from
the end, so a seek to such a place may succeed somewhere else (`IndexedReader.seek_lands`).

This holds of whatever states calls lead to, failed ones among them. All of them keep the input on
its device (`InputStream.Upon`), and all but reads that fail keep it at a place of the content
(`InputStream.Settled`).
-/

namespace TypedStream

-- ---------------------------------------------------------------------------
-- Seeks of a stream
-- ---------------------------------------------------------------------------

namespace Source

theorem seekEnd_inv {source found : Source} {delta : Int}
    (h : source.seekEnd delta = (.ok (), found)) :
    source.pipe = false ∧ (found.pos : Int) = source.content.size + delta := by
  unfold seekEnd at h
  split at h
  · cases h
  next hpipe =>
  refine ⟨by simpa using hpipe, ?_⟩
  split at h
  · cases h
  · dsimp only at h
    split at h
    · next moved hto =>
      cases h
      obtain ⟨hnonneg, rfl⟩ := seekTo_inv hto
      exact Int.toNat_of_nonneg hnonneg
    · cases h

end Source

namespace InputStream

/-- A seek that succeeds leads where it should, as the stream counts its positions. -/
theorem seek_inv {s t : InputStream} {offset : Int} {place : Nat}
    (h : seek offset s = .ok place t) :
    t.pos = place ∧ (0 ≤ offset → (place : Int) = offset) ∧
      (offset < 0 → s.source.pipe = false ∧ (place : Int) = s.source.content.size + offset) := by
  unfold seek at h
  split at h
  · next hneg =>
    split at h
    · next source hend =>
      cases h
      exact ⟨rfl, fun hnonneg => absurd hneg (Int.not_lt.mpr hnonneg),
        fun _ => Source.seekEnd_inv hend⟩
    · cases h
  · next hneg =>
    have hplace : (offset.toNat : Int) = offset := Int.toNat_of_nonneg (Int.not_lt.mp hneg)
    dsimp only at h
    split at h
    · cases h
      exact ⟨rfl, fun _ => hplace, fun hneg' => absurd hneg' hneg⟩
    · split at h
      · cases h
        exact ⟨rfl, fun _ => hplace, fun hneg' => absurd hneg' hneg⟩
      · cases h

/-- From a device that delivers nothing no request is met. -/
theorem take_starved {s : InputStream} (hchunk : s.source.chunk = some 0) (hempty : s.buffered = 0)
    {count : Nat} (hcount : 0 < count) : ∃ error t, take count s = .error error t := by
  have hread : ∀ wanted, (∃ fault, s.source.read wanted = .error fault) ∨
      ∃ found, s.source.read wanted = .ok (#[], found) := by
    intro wanted
    have hreach : s.source.reach wanted = 0 := by
      unfold Source.reach
      rw [hchunk]
      cases s.source.fault <;> simp
    have hnone : s.source.content.extract s.source.pos (s.source.pos + 0) = #[] :=
      Array.extract_empty_of_stop_le_start (Nat.le_refl _)
    unfold Source.read
    rw [hreach, hnone]
    cases s.source.fault with
    | none => exact .inr ⟨_, rfl⟩
    | some stop =>
      dsimp only
      split
      · exact .inl ⟨_, rfl⟩
      · exact .inr ⟨_, rfl⟩
  rw [take, if_neg (by omega), gather, dif_neg (by omega), readSome]
  by_cases hbig : s.buffered = 0 ∧ s.capacity ≤ count
  · rw [if_pos hbig]
    rcases hread count with ⟨fault, hread⟩ | ⟨found, hread⟩
    all_goals
      simp only [hread]
      exact ⟨_, _, rfl⟩
  · rw [if_neg hbig, fill, if_neg (by omega)]
    rcases hread s.capacity with ⟨fault, hread⟩ | ⟨found, hread⟩
    · simp only [hread]
      exact ⟨_, _, rfl⟩
    · have hpeek : peek { s with source := found, buffer := #[], used := 0 } count = [] := by
        simp [peek]
      simp only [hread, hpeek, List.length_nil, dite_true]
      exact ⟨_, _, rfl⟩

end InputStream

-- ---------------------------------------------------------------------------
-- Loading and opening
-- ---------------------------------------------------------------------------

namespace StreamIndex

section
variable {σ : Type} [SeekableInput σ] {s t : σ}

/-- What loading has done where it succeeds. -/
theorem load_inv {index : StreamIndex} (h : load s = .ok index t) :
    ∃ trailer start landed s₁ s₂ s₃ s₄, SeekableInput.seek (-pointerBytes) s = .ok trailer s₁ ∧
      (Decoder.fixed pointerBytes).exec s₁ = .ok start s₂ ∧
      SeekableInput.seek (signedOffset start) s₂ = .ok landed s₃ ∧
      readSection.exec s₃ = .ok index s₄ ∧
      ∃ back, SeekableInput.seek (signedOffset (ByteInput.pos s)) s₄ = .ok back t := by
  obtain ⟨_, _, hget, h⟩ := bind_ok.mp h
  cases hget
  obtain ⟨trailer, s₁, htrailer, h⟩ := bind_ok.mp h
  obtain ⟨start, s₂, hstart, h⟩ := bind_ok.mp h
  split at h
  · cases h
  obtain ⟨landed, s₃, hseek, h⟩ := bind_ok.mp h
  obtain ⟨found, s₄, hsection, h⟩ := bind_ok.mp h
  obtain ⟨_, _, hget, h⟩ := bind_ok.mp h
  cases hget
  split at h
  · cases h
  obtain ⟨back, s₅, hback, h⟩ := bind_ok.mp h
  cases h
  exact ⟨trailer, start, landed, s₁, s₂, s₃, s₄, seekPointer_inv htrailer, orFault_inv hstart,
    hseek, orFault_inv hsection, back, hback⟩

end

/-- A device on which an index can be loaded can be repositioned, and the stream can then go
anywhere. -/
theorem load_settled {source : Source} (hshort : source.content.size * 2 < sizeLimit)
    {s t : InputStream} (hs : s.Upon source) {index : StreamIndex} (h : load s = .ok index t) :
    source.pipe = false ∧ t.Settled source := by
  obtain ⟨trailer, start, landed, s₁, s₂, s₃, s₄, h₁, h₂, h₃, h₄, back, h₅⟩ := load_inv h
  have hpipe : source.pipe = false :=
    hs.later.pipe.symm.trans ((InputStream.seek_inv h₁).2.2 (by decide)).1
  have hs₁ : s₁.Settled source := ⟨_, hs.seek_back hpipe hshort (by decide) h₁⟩
  have hs₂ := hs₁.exec hshort h₂
  have hs₃ := hs₂.seek hshort hpipe (signedOffset_bounds start).2 h₃
  have hs₄ := hs₃.exec hshort h₄
  exact ⟨hpipe, hs₄.seek hshort hpipe (signedOffset_bounds _).2 h₅⟩

end StreamIndex

/-- A device on which a header has been read delivers something. -/
theorem Source.chunk_of_header {source : Source} {bufferSize offset : Nat} {header : Header}
    {t : InputStream}
    (h : Header.read.exec (InputStream.open source bufferSize offset) = .ok header t) :
    source.chunk ≠ some 0 := by
  intro hchunk
  obtain ⟨next, hfirst⟩ : ∃ next, Header.read = .need Header.magic.length next := ⟨_, rfl⟩
  obtain ⟨error, u, hu⟩ := InputStream.take_starved
    (s := InputStream.open source bufferSize offset) hchunk rfl
    (show 0 < Header.magic.length by decide)
  rw [hfirst] at h
  simp only [Decoder.exec, ByteInput.take, hu] at h
  cases h

namespace IndexedReader

theorem open_settled {protocol : Protocol} {source : Source} {bufferSize : Nat}
    {r₀ : IndexedReader InputStream} (hshort : source.content.size * 2 < sizeLimit)
    (h : IndexedReader.open protocol (InputStream.open source bufferSize source.pos) = .ok r₀) :
    source.pipe = false ∧ r₀.reader.input.Settled source := by
  rw [open_eq] at h
  split at h
  · cases h
  next header t hheader =>
  split at h
  · cases h
  split at h
  · cases h
  next index u hload =>
  cases h
  have hchunk := Source.chunk_of_header hheader
  obtain ⟨q, hstationed, -⟩ := (InputStream.stationed_open hchunk bufferSize).exec hheader
  exact StreamIndex.load_settled hshort hstationed.toUpon hload

end IndexedReader

-- ---------------------------------------------------------------------------
-- What calls keep
-- ---------------------------------------------------------------------------

namespace InputStream

variable {source : Source}

theorem congruent_upon (source : Source) :
    Congruent (fun s t : InputStream => s = t ∧ s.Upon source)
      (fun s t => s = t ∧ s.Upon source) where
  take := by
    rintro count s _ ⟨rfl, hs⟩
    rcases hs.take count with ⟨bytes, t, ht, hupon⟩ | ⟨error, t, ht, hupon⟩
    · exact .inl ⟨bytes, t, t, ht, ht, rfl, hupon⟩
    · exact .inr ⟨error, t, t, ht, ht, rfl, hupon⟩
  atEnd := by
    rintro s _ ⟨rfl, hs⟩
    rcases hs.atEnd with ⟨ended, t, ht, hupon⟩ | ⟨error, t, ht, hupon⟩
    · exact .inl ⟨ended, t, t, ht, ht, rfl, hupon⟩
    · exact .inr ⟨error, t, t, ht, ht, rfl, hupon⟩
  weaken := id

theorem congruent_settled (hshort : source.content.size * 2 < sizeLimit) :
    Congruent (fun s t : InputStream => s = t ∧ s.Settled source) (fun _ _ => True) :=
  Reader.congruent_self (fun hs htake => hs.take hshort htake) fun hs hend => hs.atEnd hend

theorem seek_error_counting {s t : InputStream} {offset : Int} {error : Error}
    (h : seek offset s = .error error t) :
    ∃ endSeeks, (s.source.endSeeks = none → endSeeks = none) ∧ t = s.counting endSeeks := by
  have ht := seek_error h
  split at ht
  · refine ⟨s.source.spent, fun hnone => ?_, ht⟩
    rw [Source.spent_eq (.inr hnone), hnone]
  · exact ⟨s.source.endSeeks, id, ht⟩

end InputStream

theorem Reader.reply_upon {source : Source} {r : Reader InputStream} (h : r.input.Upon source)
    (call : ReadCall) : (reply call r).2.input.Upon source := by
  have hlike : r.Like (fun s t => s = t ∧ s.Upon source) r.order.protocol r.version r :=
    ⟨rfl, rfl, rfl, rfl, rfl, rfl, h⟩
  exact (reply_like (InputStream.congruent_upon source) hlike call).2.input.2

/-- The call was a read that failed. -/
def IndexedReply.broken : IndexedReply → Bool
  | .read (.failure ..) => true
  | _ => false

namespace IndexedCall

/-- The reader after successive calls, whatever they come to. -/
def after {σ : Type} [SeekableInput σ] : List IndexedCall → IndexedReader σ → IndexedReader σ
  | [], r => r
  | call :: calls, r => after calls (call.reply r).2

section
variable {source : Source} (hshort : source.content.size * 2 < sizeLimit)
  (hpipe : source.pipe = false) {r : IndexedReader InputStream}
include hshort hpipe

theorem upon_reply (h : r.reader.input.Upon source) (call : IndexedCall) :
    (call.reply r).2.reader.input.Upon source := by
  cases hseeks : call.seeks with
  | true =>
    obtain hsame | ⟨offset, input, order, remaining, ⟨place, hseek⟩ | ⟨error, hseek⟩, hmoved⟩ :=
      call.reply_seeks hseeks r
    · rwa [hsame]
    · rw [hmoved]
      exact h.seek hpipe hshort hseek
    · rw [hmoved]
      obtain ⟨endSeeks, hcount, rfl⟩ := InputStream.seek_error_counting hseek
      exact h.counting hcount
  | false =>
    cases call with
    | seekStep | seekItem => cases hseeks
    | read call => exact Reader.reply_upon h call

theorem settled_reply (h : r.reader.input.Settled source) {call : IndexedCall}
    (hsound : (call.reply r).1.broken = false) : (call.reply r).2.reader.input.Settled source := by
  cases hseeks : call.seeks with
  | true =>
    obtain hsame | ⟨offset, input, order, remaining, ⟨place, hseek⟩ | ⟨error, hseek⟩, hmoved⟩ :=
      call.reply_seeks hseeks r
    · rwa [hsame]
    · rw [hmoved]
      exact h.seek hshort hpipe (signedOffset_bounds offset).2 hseek
    · rw [hmoved]
      obtain ⟨endSeeks, hcount, rfl⟩ := InputStream.seek_error_counting hseek
      exact h.counting hcount
  | false =>
    cases call with
    | seekStep | seekItem => cases hseeks
    | read call =>
      cases hrun : Reader.answer call r.reader with
      | ok found r' =>
        simp only [reply, Reader.reply, hrun]
        exact (Reader.answer_keeps (InputStream.congruent_settled hshort) h hrun).2.2
      | error error r' =>
        simp only [reply, Reader.reply, hrun] at hsound
        cases hsound

theorem upon_after (h : r.reader.input.Upon source) (calls : List IndexedCall) :
    (after calls r).reader.input.Upon source := by
  induction calls generalizing r with
  | nil => exact h
  | cons call calls ih => exact ih (upon_reply hshort hpipe h call)

theorem settled_after (h : r.reader.input.Settled source) {calls : List IndexedCall}
    (hsound : ∀ found ∈ replies calls r, found.1.broken = false) :
    (after calls r).reader.input.Settled source := by
  induction calls generalizing r with
  | nil => exact h
  | cons call calls ih =>
    rw [replies, List.forall_mem_cons] at hsound
    exact ih (settled_reply hshort hpipe h hsound.1) hsound.2

end

theorem index_of_after (calls : List IndexedCall) (r : IndexedReader InputStream) :
    (after calls r).index = r.index := by
  induction calls generalizing r with
  | nil => rfl
  | cons call calls ih => exact (ih _).trans (IndexedReader.index_of_reply call r)

end IndexedCall

-- ---------------------------------------------------------------------------
-- Seeks of a reader
-- ---------------------------------------------------------------------------

namespace IndexedReader

/-- The reader stands where a seek to a recorded offset leads. An offset in the upper half of the
64-bit words passes for a negative number, and so for a distance from the end. -/
structure Landed (r : IndexedReader InputStream) (source : Source) (offset : Nat) : Prop where
  low : offset * 2 < sizeLimit → r.reader.pos = offset
  high : sizeLimit ≤ offset * 2 → offset < sizeLimit →
    r.reader.pos + sizeLimit = source.content.size + offset

section
variable {r r' : IndexedReader InputStream} {source : Source} {offset step remaining : Nat}

theorem signedOffset_large (hhigh : sizeLimit ≤ offset * 2) (hword : offset < sizeLimit) :
    signedOffset offset = (offset : Int) - sizeLimit := by
  have hwraps : Int.bmod ((offset : Int) - sizeLimit) sizeLimit = (offset : Int) - sizeLimit :=
    bmod_small (by omega) (by omega)
  rwa [Int.sub_bmod_right] at hwraps

theorem jump_landed (h : r.reader.input.Upon source)
    (hjump : jump offset step remaining r = .ok () r') : r'.Landed source offset := by
  obtain ⟨place, input, hseek, rfl⟩ := jump_inv hjump
  obtain ⟨hpos, hstart, hend⟩ := InputStream.seek_inv hseek
  have hpos : input.pos = place := hpos
  refine ⟨fun hlow => ?_, fun hhigh hword => ?_⟩
  · rw [signedOffset_small hlow] at hstart
    have hplace : (place : Int) = offset := hstart (Int.natCast_nonneg _)
    show input.pos = offset
    omega
  · rw [signedOffset_large hhigh hword, h.later.content] at hend
    have hplace : (place : Int) = source.content.size + (offset - sizeLimit) :=
      (hend (by omega)).2
    show input.pos + sizeLimit = source.content.size + offset
    omega

theorem jump_low (hpipe : source.pipe = false) (h : r.reader.input.Settled source)
    (hlow : offset * 2 < sizeLimit) (step remaining : Nat) :
    ∃ r', jump offset step remaining r = .ok () r' := by
  obtain ⟨input, hinput⟩ := h.seek_ok hpipe hlow
  rw [← signedOffset_small hlow] at hinput
  exact ⟨_, jump_run hinput⟩

end

/-- Whatever has been called before, a seek that succeeds leads to the offset that the index has
recorded, if this lies in the lower half of the 64-bit words; one in the upper half is taken for a
distance from the end. Unless a read has failed, what is read next is what lies at the position,
and a seek to an offset in the lower half succeeds. -/
theorem seek_lands {protocol : Protocol} {source : Source} {readBuffer : Nat}
    {r₀ : IndexedReader InputStream} (hshort : source.content.size * 2 < sizeLimit)
    (hopen : IndexedReader.open protocol (InputStream.open source readBuffer source.pos) = .ok r₀)
    (calls : List IndexedCall) :
    let r := IndexedCall.after calls r₀
    r.index = r₀.index ∧
      (∀ step r', seekStep step r = .ok () r' → ∃ name offset, r.stepName step = .ok name ∧
        r₀.index.stepOffset name = .ok offset ∧ r'.Landed source offset) ∧
      (∀ step item r', seekItem step item r = .ok true r' → ∃ name offset,
        r.streamName step = .ok name ∧ (r₀.index.itemsOf name)[item]? = some offset ∧
          r'.Landed source offset) ∧
      (∀ step item r', seekItem step item r = .ok false r' → r' = r ∧
        ∃ name, r.streamName step = .ok name ∧ r₀.index.count name ≤ item) ∧
      ((∀ found ∈ IndexedCall.replies calls r₀, found.1.broken = false) →
        r.reader.input.ahead = source.content.toList.drop r.reader.pos ∧
        (∀ step name offset, r.stepName step = .ok name → r₀.index.stepOffset name = .ok offset →
          offset * 2 < sizeLimit → ∃ r', seekStep step r = .ok () r') ∧
        ∀ step item name offset, r.streamName step = .ok name →
          (r₀.index.itemsOf name)[item]? = some offset → offset * 2 < sizeLimit →
            ∃ r', seekItem step item r = .ok true r') := by
  intro r
  obtain ⟨hpipe, hsettled₀⟩ := open_settled hshort hopen
  have hupon := IndexedCall.upon_after hshort hpipe hsettled₀.upon calls
  have hindex : r.index = r₀.index := IndexedCall.index_of_after calls r₀
  refine ⟨hindex, fun step r' h => ?_, fun step item r' h => ?_, fun step item r' h => ?_,
    fun hsound => ?_⟩
  · obtain ⟨offset, htarget, hjump⟩ := seekStep_ok h
    obtain ⟨name, hname, hoffset⟩ := stepTarget_inv htarget
    exact ⟨name, offset, hname, hindex ▸ hoffset, jump_landed hupon hjump⟩
  · obtain ⟨hfound, -⟩ | ⟨location, -, htarget, hjump⟩ := seekItem_ok h
    · cases hfound
    obtain ⟨name, hname, ⟨-, hnone⟩ | ⟨found, hfind, hsome⟩⟩ := itemTarget_inv htarget
    · cases hnone
    cases hsome
    exact ⟨name, location.offset, hname, hindex ▸ StreamIndex.getElem?_of_find hfind,
      jump_landed hupon hjump⟩
  · obtain ⟨-, htarget, hsame⟩ | ⟨location, hfound, -⟩ := seekItem_ok h
    · obtain ⟨name, hname, ⟨hcount, -⟩ | ⟨found, -, hsome⟩⟩ := itemTarget_inv htarget
      · exact ⟨hsame, name, hname, hindex ▸ hcount⟩
      · cases hsome
    · cases hfound
  · have hsettled := IndexedCall.settled_after hshort hpipe hsettled₀ hsound
    refine ⟨hsettled.ahead_eq, fun step name offset hname hoffset hlow => ?_,
      fun step item name offset hname hitem hlow => ?_⟩
    · obtain ⟨r', hjump⟩ := jump_low hpipe hsettled hlow step 0
      exact ⟨r', (seekStep_run hname (hindex.symm ▸ hoffset)).trans hjump⟩
    · have hcount : item < r.index.count name := by
        rw [hindex]
        exact (List.getElem?_eq_some_iff.mp hitem).1
      obtain ⟨location, hfind, hoffset⟩ := StreamIndex.find_of_getElem? hitem
      subst hoffset
      obtain ⟨r', hjump⟩ := jump_low hpipe hsettled hlow step location.remaining
      exact ⟨r', seekItem_run hname hcount (hindex.symm ▸ hfind) hjump⟩

end IndexedReader

-- ---------------------------------------------------------------------------
-- A file of one step
-- ---------------------------------------------------------------------------

namespace Labelled

def protocol : Protocol where
  name := "Labelled"
  steps := [⟨"label", .scalar⟩]
  schema := "x"

/-- An index that puts the step at `offset`. -/
def index (offset : Nat) : StreamIndex := { steps := [("label", offset)] }

/-- A header of eleven bytes, a payload of one, and the index. -/
def content (offset : Nat) : Array UInt8 :=
  (Header.bytes "x" ++ [12] ++ ((index offset).writes 12).flatten).toArray

def source (offset : Nat) : Source := { content := content offset }

theorem open_ok {offset : Nat} (hword : offset < sizeLimit)
    (hshort : (content offset).size * 2 < sizeLimit) :
    ∃ r₀, IndexedReader.open protocol (InputStream.open (source offset) 64 0) = .ok r₀ ∧
      r₀.index = index offset ∧ r₀.reader.order = ⟨protocol, .at 0⟩ ∧
      r₀.reader.input.Over (content offset) 11 := by
  have hstorable : (index offset).Storable :=
    ⟨trivial, trivial, trivial, by simpa [index] using hword, by simp [index], by simp [index]⟩
  have hlength : (Header.bytes "x" ++ [12]).length = 12 := by decide +kernel
  have hcontent : (content offset).toList =
      Header.bytes "x" ++ [12] ++ ((index offset).writes 12).flatten := rfl
  have hbehind := hcontent
  rw [← hlength] at hbehind
  have hsize : (content offset).toList.length < sizeLimit := by
    rw [Array.length_toList]
    omega
  have hstored : (index offset).StoredIn (content offset).toList :=
    hstorable.storedIn hsize hbehind
  have hheader : (content offset).toList.drop 0 =
      Header.bytes protocol.schema ++ ([12] ++ ((index offset).writes 12).flatten) := by
    rw [List.drop_zero, hcontent, List.append_assoc]
    rfl
  have hseekable : (source offset).Seekable := ⟨⟨rfl, by simp [source]⟩, rfl, rfl⟩
  have hover := InputStream.over_open hseekable hshort (Nat.zero_le _) 64
  obtain ⟨r₀, version, hopen, hstands, horder, -, hover₀⟩ :=
    IndexedReader.open_stored hheader (by decide) hstored hover
  have hstart : 0 + (Header.bytes protocol.schema).length = 11 := by decide +kernel
  rw [hstart] at hover₀
  exact ⟨r₀, hopen, hstands.index_eq, horder, hover₀⟩

end Labelled

namespace IndexedReader

theorem seek_lands_labelled :
    ∃ r₀ r', IndexedReader.open Labelled.protocol
        (InputStream.open (Labelled.source 11) 64 0) = .ok r₀ ∧
      seekStep 0 r₀ = .ok () r' ∧ r'.reader.pos = 11 := by
  have hshort : (Labelled.content 11).size * 2 < sizeLimit := by decide +kernel
  obtain ⟨r₀, hopen, hindex, horder, -⟩ := Labelled.open_ok (by decide) hshort
  obtain ⟨-, hstep, -, -, hsound⟩ := @seek_lands _ (Labelled.source 11) _ _ hshort hopen []
  obtain ⟨-, hsucceeds, -⟩ := hsound (by simp [IndexedCall.replies])
  have hname : r₀.stepName 0 = .ok "label" := by
    rw [stepName, horder]
    rfl
  have hoffset : r₀.index.stepOffset "label" = .ok 11 := by
    rw [hindex]
    decide +kernel
  obtain ⟨r', hr'⟩ := hsucceeds 0 "label" 11 hname hoffset (by decide)
  obtain ⟨name, offset, hname', hoffset', hlanded⟩ := hstep 0 r' hr'
  refine ⟨r₀, r', hopen, hr', ?_⟩
  cases hname.symm.trans hname'
  cases hoffset.symm.trans hoffset'
  exact hlanded.low (by decide)

/-- An offset eight short of the number of words is taken for the place eight bytes in front of
the end. -/
theorem seek_lands_before_end :
    ¬ ∀ (protocol : Protocol) (source : Source) (readBuffer : Nat)
      (r₀ r' : IndexedReader InputStream) (step : Nat) (name : String) (offset : Nat),
      IndexedReader.open protocol (InputStream.open source readBuffer source.pos) = .ok r₀ →
        seekStep step r₀ = .ok () r' → r₀.stepName step = .ok name →
          r₀.index.stepOffset name = .ok offset → r'.reader.pos = offset := by
  intro h
  have hsize : (Labelled.content 18446744073709551608).size = 53 := by decide +kernel
  have hshort : (Labelled.content 18446744073709551608).size * 2 < sizeLimit := by
    rw [hsize]
    decide
  obtain ⟨r₀, hopen, hindex, horder, hover⟩ := Labelled.open_ok (by decide) hshort
  have hname : r₀.stepName 0 = .ok "label" := by
    rw [stepName, horder]
    rfl
  have hoffset : r₀.index.stepOffset "label" = .ok 18446744073709551608 := by
    rw [hindex]
    decide +kernel
  obtain ⟨input, hseek, hback⟩ :=
    hover.placed.seek_end (show 0 < 8 by decide) (by rw [hsize]; decide)
  have hsigned : signedOffset 18446744073709551608 = -((8 : Nat) : Int) := by decide +kernel
  rw [← hsigned] at hseek
  have hjump : jump 18446744073709551608 0 0 r₀ = .ok () _ := jump_run hseek
  have hlanded := h _ _ _ _ _ 0 _ _ hopen ((seekStep_run hname hoffset).trans hjump) hname hoffset
  have hpos : input.pos = (Labelled.content 18446744073709551608).size - 8 := hback.pos_eq
  rw [hsize] at hpos
  have hsame : input.pos = 18446744073709551608 := hlanded
  omega

end IndexedReader

end TypedStream
