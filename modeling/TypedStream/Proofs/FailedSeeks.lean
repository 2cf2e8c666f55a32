import TypedStream.Proofs.Congruence
import TypedStream.Proofs.Input.Counting
import TypedStream.Proofs.Input.Unbuffered
import TypedStream.Proofs.Jumps

/-!
# Seeks that fail

A seek that fails leaves a stream as it was, and an indexed reader too, wherever on its way the
seek fails and whatever has been done before (`IndexedReader.failed_seeks`). One trace may be left,
in the device: one that fails at its n-th seek from the end counts the call.
-/

namespace TypedStream

-- ---------------------------------------------------------------------------
-- Calls of a stream
-- ---------------------------------------------------------------------------

namespace InputCall

/-- The call moves to a position that it gives from the end of the input. -/
def fromEnd : InputCall → Bool
  | .seek offset _ => decide (offset < 0)
  | _ => false

/-- What successive calls come to, each with the position behind it. A call that fails does not
stop the caller. -/
def results {σ : Type} [SeekableInput σ] :
    List InputCall → σ → List (Except Error InputAnswer × Nat)
  | [], _ => []
  | call :: calls, s =>
    match call.run s with
    | .ok answer s => (.ok answer, ByteInput.pos s) :: results calls s
    | .error error s => (.error error, ByteInput.pos s) :: results calls s

theorem run_counting (endSeeks : Option Nat) {call : InputCall} (hstart : call.fromEnd = false) :
    Relates (InputStream.Counting endSeeks) (InputStream.Counting endSeeks) call.run call.run := by
  have h : Congruent (InputStream.Counting endSeeks) (InputStream.Counting endSeeks) :=
    InputStream.congruent_counting
  cases call with
  | decode piece => exact h.exec piece.decoder
  | tryVarint => exact h.tryVarint.map _
  | verifyFinished =>
    refine (h.atEnd.bind fun ended => ?_).map _
    cases ended with
    | true => exact .pure ()
    | false => exact fun _ _ hst => .of_error hst _
  | seek offset =>
    exact (InputStream.seek_counting (Int.not_lt.mp (of_decide_eq_false hstart))).map _

theorem results_counting (endSeeks : Option Nat) {calls : List InputCall}
    (hstart : ∀ call ∈ calls, call.fromEnd = false) (s : InputStream) :
    results calls (s.counting endSeeks) = results calls s := by
  induction calls generalizing s with
  | nil => rfl
  | cons call calls ih =>
    have hrest : ∀ call ∈ calls, call.fromEnd = false :=
      fun other hother => hstart other (List.mem_cons_of_mem _ hother)
    rcases run_counting endSeeks (hstart call (List.mem_cons_self ..)) s _ rfl with
      ⟨answer, t, _, hs, ht, rfl⟩ | ⟨error, t, _, hs, ht, rfl⟩
    · simp only [results, hs, ht, ih hrest]
      rfl
    · simp only [results, hs, ht, ih hrest]
      rfl

end InputCall

-- ---------------------------------------------------------------------------
-- Indexed readers
-- ---------------------------------------------------------------------------

/-- Every place that the index knows is one that a signed 64-bit word can measure. -/
structure StreamIndex.Near (index : StreamIndex) : Prop where
  steps_low : ∀ e ∈ index.steps, e.2 * 2 < sizeLimit
  items_low : ∀ e ∈ index.items, ∀ n ∈ e.2, n * 2 < sizeLimit

theorem StreamIndex.Near.find_low {index : StreamIndex} (h : index.Near) {name : String}
    {item : Nat} {location : ItemLocation} (hfind : index.find name item = .ok location) :
    location.offset * 2 < sizeLimit := by
  have hmem := List.mem_of_getElem? (getElem?_of_find hfind)
  unfold itemsOf at hmem
  cases hfound : Assoc.find? name index.items with
  | none =>
    rw [hfound] at hmem
    cases hmem
  | some offsets =>
    rw [hfound] at hmem
    exact h.items_low _ (Assoc.mem_of_find? hfound) _ hmem

/-- A call of a reader with an index. -/
inductive IndexedCall where
  | read (call : ReadCall)
  | seekStep (step : Nat)
  | seekItem (step item : Nat)

inductive IndexedReply where
  | read (reply : Reply)
  /-- Whether there is such a step or item. -/
  | sought (found : Except Error Bool)

namespace IndexedCall

def seeks : IndexedCall → Bool
  | read _ => false
  | seekStep _ | seekItem .. => true

section
variable {σ : Type} [SeekableInput σ]

def reply : IndexedCall → IndexedReader σ → IndexedReply × IndexedReader σ
  | read call, r =>
    (.read (Reader.reply call r.reader).1, { r with reader := (Reader.reply call r.reader).2 })
  | seekStep step, r =>
    match IndexedReader.seekStep step r with
    | .ok () r => (.sought (.ok true), r)
    | .error error r => (.sought (.error error), r)
  | seekItem step item, r =>
    match IndexedReader.seekItem step item r with
    | .ok found r => (.sought (.ok found), r)
    | .error error r => (.sought (.error error), r)

/-- What successive calls come to, each with the position behind it. A call that fails does not
stop the caller. -/
def replies : List IndexedCall → IndexedReader σ → List (IndexedReply × Nat)
  | [], _ => []
  | call :: calls, r =>
    ((call.reply r).1, (call.reply r).2.reader.pos) :: replies calls (call.reply r).2

end

end IndexedCall

theorem Reader.Like.counting_eq {endSeeks : Option Nat} {protocol : Protocol} {version : Nat}
    {r r' : Reader InputStream} (h : r.Like (InputStream.Counting endSeeks) protocol version r') :
    r' = { r with input := r.input.counting endSeeks } := by
  obtain ⟨input, order, version', remaining⟩ := r'
  obtain ⟨horder, -, hversion, hversion', hremaining, hinput⟩ := h
  dsimp only at horder hversion' hremaining hinput
  rw [hinput, ← horder, hversion', ← hversion, ← hremaining]

/-- A call that seeks leaves the reader alone, or its input has been asked to seek. -/
theorem IndexedCall.reply_seeks {σ : Type} [SeekableInput σ] {call : IndexedCall}
    (hseeks : call.seeks = true) (r : IndexedReader σ) :
    (call.reply r).2 = r ∨ ∃ offset input order remaining,
      ((∃ place, SeekableInput.seek (signedOffset offset) r.reader.input = .ok place input) ∨
        ∃ error, SeekableInput.seek (signedOffset offset) r.reader.input = .error error input) ∧
      (call.reply r).2 = { r with reader := { r.reader with input, order, remaining } } := by
  cases call with
  | read call => cases hseeks
  | seekStep step =>
    cases hrun : IndexedReader.seekStep step r with
    | ok found r' =>
      obtain ⟨offset, -, hjump⟩ := IndexedReader.seekStep_ok hrun
      obtain ⟨place, input, hseek, rfl⟩ := IndexedReader.jump_inv hjump
      simp only [reply, hrun]
      exact .inr ⟨offset, input, _, _, .inl ⟨place, hseek⟩, rfl⟩
    | error error r' =>
      simp only [reply, hrun]
      obtain rfl | ⟨offset, -, hjump⟩ := IndexedReader.seekStep_failed hrun
      · exact .inl rfl
      · obtain ⟨input, hseek, rfl⟩ := IndexedReader.jump_failed hjump
        exact .inr ⟨offset, input, _, _, .inr ⟨error, hseek⟩, rfl⟩
  | seekItem step item =>
    cases hrun : IndexedReader.seekItem step item r with
    | ok found r' =>
      simp only [reply, hrun]
      obtain ⟨-, -, rfl⟩ | ⟨location, -, -, hjump⟩ := IndexedReader.seekItem_ok hrun
      · exact .inl rfl
      · obtain ⟨place, input, hseek, rfl⟩ := IndexedReader.jump_inv hjump
        exact .inr ⟨location.offset, input, _, _, .inl ⟨place, hseek⟩, rfl⟩
    | error error r' =>
      simp only [reply, hrun]
      obtain rfl | ⟨location, -, hjump⟩ := IndexedReader.seekItem_failed hrun
      · exact .inl rfl
      · obtain ⟨input, hseek, rfl⟩ := IndexedReader.jump_failed hjump
        exact .inr ⟨location.offset, input, _, _, .inr ⟨error, hseek⟩, rfl⟩

namespace IndexedReader

def counting (r : IndexedReader InputStream) (endSeeks : Option Nat) : IndexedReader InputStream :=
  { r with reader := { r.reader with input := r.reader.input.counting endSeeks } }

def Counting (endSeeks : Option Nat) (r r' : IndexedReader InputStream) : Prop :=
  r' = r.counting endSeeks

section
variable {r r' : IndexedReader InputStream} {endSeeks : Option Nat} {offset step remaining : Nat}

theorem onReader_counting {act : EStateM Error InputStream α}
    (hact : Relates (InputStream.Counting endSeeks) (InputStream.Counting endSeeks) act act) :
    Relates (Counting endSeeks) (Counting endSeeks) (onReader (Reader.onInput act))
      (onReader (Reader.onInput act)) := by
  rintro r _ rfl
  rcases hact r.reader.input _ rfl with ⟨a, t, _, hs, ht, rfl⟩ | ⟨e, t, _, hs, ht, rfl⟩
  · have ht' : act (r.counting endSeeks).reader.input = .ok a (t.counting endSeeks) := ht
    simp only [onReader, Reader.onInput, hs, ht']
    exact .of_ok (R := Counting endSeeks) rfl a
  · have ht' : act (r.counting endSeeks).reader.input = .error e (t.counting endSeeks) := ht
    simp only [onReader, Reader.onInput, hs, ht']
    exact .of_error (E := Counting endSeeks) rfl e

theorem jump_counting (hlow : offset * 2 < sizeLimit) (step remaining : Nat) :
    Relates (Counting endSeeks) (Counting endSeeks) (jump offset step remaining)
      (jump offset step remaining) := by
  have hnonneg : 0 ≤ signedOffset offset := by
    rw [signedOffset_small hlow]
    exact Int.natCast_nonneg _
  refine (onReader_counting (InputStream.seek_counting hnonneg)).bind fun _ => .modify ?_
  rintro r _ rfl
  rfl

theorem seekStep_counting (endSeeks : Option Nat) (hnear : r.index.Near) (step : Nat) :
    Related (Counting endSeeks) (Counting endSeeks) (seekStep step r)
      (seekStep step (r.counting endSeeks)) := by
  have hsame : (r.counting endSeeks).stepTarget step = r.stepTarget step := rfl
  rw [seekStep_eq, seekStep_eq, hsame]
  cases htarget : r.stepTarget step with
  | error error => exact .of_error (E := Counting endSeeks) rfl error
  | ok offset =>
    obtain ⟨name, -, hoffset⟩ := stepTarget_inv htarget
    have hlow := hnear.steps_low _ (StreamIndex.mem_of_stepOffset hoffset)
    exact jump_counting hlow step 0 r _ rfl

theorem seekItem_counting (endSeeks : Option Nat) (hnear : r.index.Near) (step item : Nat) :
    Related (Counting endSeeks) (Counting endSeeks) (seekItem step item r)
      (seekItem step item (r.counting endSeeks)) := by
  have hsame : (r.counting endSeeks).itemTarget step item = r.itemTarget step item := rfl
  rw [seekItem_eq, seekItem_eq, hsame]
  cases htarget : r.itemTarget step item with
  | error error => exact .of_error (E := Counting endSeeks) rfl error
  | ok found =>
    obtain ⟨name, -, ⟨-, rfl⟩ | ⟨location, hfind, rfl⟩⟩ := itemTarget_inv htarget
    · exact .of_ok (R := Counting endSeeks) rfl false
    · exact (jump_counting (hnear.find_low hfind) step location.remaining).map _ r _ rfl

-- ---------------------------------------------------------------------------
-- Calls of an indexed reader
-- ---------------------------------------------------------------------------

theorem reply_counting (endSeeks : Option Nat) {call : IndexedCall}
    (hnear : call.seeks = true → r.index.Near) :
    (call.reply (r.counting endSeeks)).1 = (call.reply r).1 ∧
      (call.reply (r.counting endSeeks)).2 = (call.reply r).2.counting endSeeks := by
  cases call with
  | read call =>
    have hlike : r.reader.Like (InputStream.Counting endSeeks) r.reader.order.protocol
        r.reader.version (r.counting endSeeks).reader := ⟨rfl, rfl, rfl, rfl, rfl, rfl⟩
    obtain ⟨hsame, hlike⟩ := Reader.reply_like InputStream.congruent_counting hlike call
    refine ⟨congrArg IndexedReply.read hsame.symm, ?_⟩
    simp only [IndexedCall.reply, hlike.counting_eq]
    rfl
  | seekStep step =>
    rcases seekStep_counting endSeeks (hnear rfl) step with
      ⟨_, s, _, hs, ht, rfl⟩ | ⟨error, s, _, hs, ht, rfl⟩
    · simp only [IndexedCall.reply, hs, ht, true_and]
    · simp only [IndexedCall.reply, hs, ht, true_and]
  | seekItem step item =>
    rcases seekItem_counting endSeeks (hnear rfl) step item with
      ⟨found, s, _, hs, ht, rfl⟩ | ⟨error, s, _, hs, ht, rfl⟩
    · simp only [IndexedCall.reply, hs, ht, true_and]
    · simp only [IndexedCall.reply, hs, ht, true_and]

theorem index_of_reply (call : IndexedCall) (r : IndexedReader InputStream) :
    (call.reply r).2.index = r.index := by
  cases hseeks : call.seeks with
  | true =>
    obtain hsame | ⟨offset, input, order, remaining, -, hmoved⟩ := call.reply_seeks hseeks r
    · rw [hsame]
    · rw [hmoved]
  | false =>
    cases call with
    | read call => rfl
    | seekStep | seekItem => cases hseeks

theorem replies_counting {calls : List IndexedCall}
    (hnear : (∃ call ∈ calls, call.seeks = true) → r.index.Near) :
    IndexedCall.replies calls (r.counting endSeeks) = IndexedCall.replies calls r := by
  induction calls generalizing r with
  | nil => rfl
  | cons call calls ih =>
    obtain ⟨hsame, hnext⟩ := reply_counting endSeeks
      fun hseeks => hnear ⟨call, List.mem_cons_self .., hseeks⟩
    have hrest : (∃ other ∈ calls, other.seeks = true) → (call.reply r).2.index.Near := by
      rintro ⟨other, hother, hseeks⟩
      rw [index_of_reply]
      exact hnear ⟨other, List.mem_cons_of_mem _ hother, hseeks⟩
    rw [IndexedCall.replies, IndexedCall.replies, hsame, hnext, ih hrest]
    rfl

end

end IndexedReader

-- ---------------------------------------------------------------------------
-- What a failed seek leaves
-- ---------------------------------------------------------------------------

/-- `t` is what `s` was, but for the count of seeks that the device itself may keep. -/
structure InputStream.Unmoved (s t : InputStream) : Prop where
  pos : t.pos = s.pos
  counted : t = s ∨ t = s.counting s.source.spent
  same : s.source.pipe = true ∨ s.source.endSeeks = none → t = s
  results : ∀ calls, (∀ call ∈ calls, InputCall.fromEnd call = false) →
    InputCall.results calls t = InputCall.results calls s

theorem InputStream.Unmoved.of_eq {s t : InputStream}
    (h : t = s ∨ t = s.counting s.source.spent) : s.Unmoved t where
  pos := by rcases h with rfl | rfl <;> rfl
  counted := h
  same hspent := by
    rcases h with rfl | rfl
    · rfl
    · rw [Source.spent_eq hspent]
      rfl
  results calls hstart := by
    rcases h with rfl | rfl
    · rfl
    · exact InputCall.results_counting _ hstart s

namespace IndexedReader

/-- `r'` is what `r` was, but for the count of seeks that the device itself may keep. -/
structure Unmoved (r r' : IndexedReader InputStream) : Prop where
  order : r'.reader.order = r.reader.order
  remaining : r'.reader.remaining = r.reader.remaining
  pos : r'.reader.pos = r.reader.pos
  counted : r' = r ∨ r' = r.counting r.reader.input.source.spent
  same : r.reader.input.source.pipe = true ∨ r.reader.input.source.endSeeks = none → r' = r
  replies : ∀ calls, ((∃ call ∈ calls, IndexedCall.seeks call = true) → r.index.Near) →
    IndexedCall.replies calls r' = IndexedCall.replies calls r

theorem Unmoved.of_eq {r r' : IndexedReader InputStream}
    (h : r' = r ∨ r' = r.counting r.reader.input.source.spent) : r.Unmoved r' where
  order := by rcases h with rfl | rfl <;> rfl
  remaining := by rcases h with rfl | rfl <;> rfl
  pos := by rcases h with rfl | rfl <;> rfl
  counted := h
  same hspent := by
    rcases h with rfl | rfl
    · rfl
    · rw [Source.spent_eq hspent]
      rfl
  replies calls hnear := by
    rcases h with rfl | rfl
    · rfl
    · exact replies_counting hnear

end IndexedReader

end TypedStream
