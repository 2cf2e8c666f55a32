import TypedStream.Proofs.Input.Alike
import TypedStream.Proofs.Input.Seeking

/-!
# The device's count of seeks

A device that fails at its n-th seek from the end counts these seeks. Streams that differ in this
count alone deliver alike, and go alike to any place that is counted from the start
(`InputStream.congruent_counting`, `InputStream.seek_counting`). A seek that fails changes nothing
else (`InputStream.seek_error`).
-/

namespace TypedStream

namespace Source

/-- What one more seek from the end leaves of the count of such seeks. -/
def spent (source : Source) : Option Nat :=
  if source.pipe then source.endSeeks
  else
    match source.endSeeks with
    | some (count + 1) => some count
    | _ => none

theorem spent_eq {source : Source} (h : source.pipe = true ∨ source.endSeeks = none) :
    source.spent = source.endSeeks := by
  unfold spent
  rcases h with hpipe | hcount
  · rw [if_pos hpipe]
  · simp [hcount]

theorem seekTo_inv {source target : Source} {place : Int} (h : source.seekTo place = .ok target) :
    0 ≤ place ∧ target = { source with pos := place.toNat } := by
  unfold seekTo at h
  split at h
  · cases h
  split at h
  · cases h
  · next hplace =>
    cases h
    exact ⟨by omega, rfl⟩

theorem seekEnd_error {source source' : Source} {delta : Int} {fault : DeviceFault}
    (h : source.seekEnd delta = (.error fault, source')) :
    source' = { source with endSeeks := source.spent } := by
  obtain ⟨content, pos, chunk, stop, pipe, endSeeks, endFault⟩ := source
  cases pipe with
  | true =>
    cases h
    rfl
  | false =>
    simp only [seekEnd, Bool.false_eq_true, if_false] at h
    rcases endSeeks with _ | _ | count
    · simp only at h
      split at h <;> cases h
      rfl
    · cases h
      rfl
    · simp only at h
      split at h <;> cases h
      rfl

theorem read_counting (source : Source) (endSeeks : Option Nat) (count : Nat) :
    read { source with endSeeks } count =
      (source.read count).map fun (got, moved) => (got, { moved with endSeeks }) := by
  unfold read reach
  cases source.fault with
  | none => rfl
  | some found =>
    dsimp only
    split <;> rfl

end Source

namespace InputStream

/-- The stream, with another count of seeks from the end left to its device. -/
def counting (s : InputStream) (endSeeks : Option Nat) : InputStream :=
  { s with source := { s.source with endSeeks } }

section
variable (s : InputStream) (endSeeks : Option Nat)

@[simp] theorem counting_capacity : (s.counting endSeeks).capacity = s.capacity := rfl

@[simp] theorem counting_buffer : (s.counting endSeeks).buffer = s.buffer := rfl

@[simp] theorem counting_used : (s.counting endSeeks).used = s.used := rfl

@[simp] theorem counting_pos : (s.counting endSeeks).pos = s.pos := rfl

@[simp] theorem counting_buffered : (s.counting endSeeks).buffered = s.buffered := rfl

theorem read_counting (count : Nat) : (s.counting endSeeks).source.read count =
    (s.source.read count).map fun (got, moved) => (got, { moved with endSeeks }) :=
  s.source.read_counting endSeeks count

end

def Counting (endSeeks : Option Nat) (s t : InputStream) : Prop := t = s.counting endSeeks

/-- A seek that fails leaves the stream as it was, but for the device's count. -/
theorem seek_error {s t : InputStream} {offset : Int} {error : Error}
    (h : seek offset s = .error error t) :
    t = if offset < 0 then s.counting s.source.spent else s := by
  unfold seek at h
  split at h
  · next hneg =>
    rw [if_pos hneg]
    split at h
    · cases h
    · next fault source hend =>
      cases h
      rw [Source.seekEnd_error hend]
      rfl
  · next hneg =>
    rw [if_neg hneg]
    dsimp only at h
    split at h
    · cases h
    · split at h <;> cases h
      rfl

section
variable {endSeeks : Option Nat}

theorem Counting.of_ok (s : InputStream) (a : α) : Related (Counting endSeeks) (Counting endSeeks)
    (.ok a s : EStateM.Result ε InputStream α) (.ok a (s.counting endSeeks)) :=
  Related.of_ok (R := Counting endSeeks) rfl a

theorem Counting.of_error (s : InputStream) (e : ε) :
    Related (Counting endSeeks) (Counting endSeeks)
      (.error e s : EStateM.Result ε InputStream α) (.error e (s.counting endSeeks)) :=
  Related.of_error (E := Counting endSeeks) rfl e

theorem fill_counting : Relates (Counting endSeeks) (Counting endSeeks) fill fill := by
  rintro s _ rfl
  simp only [fill, counting_buffered, counting_capacity, read_counting]
  split
  · exact Counting.of_ok s ()
  · cases s.source.read s.capacity with
    | ok found => exact Counting.of_ok _ ()
    | error fault => exact Counting.of_error _ fault

theorem readSome_counting (count : Nat) :
    Relates (Counting endSeeks) (Counting endSeeks) (readSome count) (readSome count) := by
  rintro s _ rfl
  simp only [readSome, counting_buffered, counting_capacity, read_counting]
  split
  · cases s.source.read count with
    | ok found => exact Counting.of_ok _ _
    | error fault => exact Counting.of_error _ fault
  · rcases fill_counting s _ rfl with ⟨_, s', _, hs, ht, rfl⟩ | ⟨fault, s', _, hs, ht, rfl⟩
    · rw [hs, ht]
      exact Counting.of_ok _ _
    · rw [hs, ht]
      exact Counting.of_error _ fault

theorem gather_counting (wanted : Nat) (found : Bytes) :
    Relates (Counting endSeeks) (Counting endSeeks) (gather wanted found)
      (gather wanted found) := by
  induction wanted using Nat.strongRecOn generalizing found with
  | ind wanted ih =>
    intro s t hst
    rw [gather, gather]
    split
    · exact .of_ok hst _
    rcases readSome_counting wanted s t hst with
      ⟨got, s', t', hs, ht, hrel⟩ | ⟨fault, s', t', hs, ht, hrel⟩
    · simp only [hs, ht]
      split
      · exact .of_error hrel _
      · exact ih _ (by omega) _ s' t' hrel
    · simp only [hs, ht]
      exact .of_error hrel _

theorem take_counting (count : Nat) :
    Relates (Counting endSeeks) (Counting endSeeks) (take count) (take count) := by
  rintro s _ rfl
  by_cases hb : count ≤ s.buffered
  · simp only [take, counting_buffered, hb, if_true]
    exact Counting.of_ok _ _
  · simp only [take, counting_buffered, hb, if_false]
    rcases gather_counting count [] s _ rfl with
      ⟨bytes, s', _, hs, ht, rfl⟩ | ⟨error, s', _, hs, ht, rfl⟩
    · rw [hs, ht]
      exact Counting.of_ok _ bytes
    · rw [hs, ht]
      exact Counting.of_error _ error

theorem atEnd_counting : Relates (Counting endSeeks) (Counting endSeeks) atEnd atEnd := by
  rintro s _ rfl
  rcases fill_counting s _ rfl with ⟨_, s', _, hs, ht, rfl⟩ | ⟨fault, s', _, hs, ht, rfl⟩
  · rw [atEnd, hs, atEnd, ht]
    exact Counting.of_ok _ _
  · rw [atEnd, hs, atEnd, ht]
    exact Counting.of_error _ _

theorem congruent_counting : Congruent (Counting endSeeks) (Counting endSeeks) where
  take := take_counting
  atEnd := atEnd_counting
  weaken := id

theorem seek_counting {offset : Int} (hnonneg : 0 ≤ offset) :
    Relates (Counting endSeeks) (Counting endSeeks) (seek offset) (seek offset) := by
  rintro s _ rfl
  have hto : ∀ place : Int, Source.seekTo { s.source with endSeeks } place =
      (s.source.seekTo place).map fun moved => { moved with endSeeks } := by
    intro place
    unfold Source.seekTo
    dsimp only
    split
    · rfl
    · split <;> rfl
  rw [seek, if_neg (Int.not_lt.mpr hnonneg), seek, if_neg (Int.not_lt.mpr hnonneg)]
  by_cases hheld : 0 ≤ s.used + Int.bmod (offset - s.pos) sizeLimit ∧
      s.used + Int.bmod (offset - s.pos) sizeLimit ≤ s.buffer.size
  · simp only [counting_buffer, counting_used, counting_pos, hheld, and_self, if_true]
    exact Counting.of_ok _ _
  · simp only [counting_buffered, counting_buffer, counting_used, counting_pos, hheld, if_false]
    simp only [counting, Source.seekBy, hto]
    cases s.source.seekTo (s.source.pos + (Int.bmod (offset - s.pos) sizeLimit - s.buffered)) with
    | ok moved => exact Counting.of_ok _ _
    | error fault => exact Counting.of_error s _

end

end InputStream

end TypedStream
