import TypedStream.Input.Basic
import TypedStream.Run
import TypedStream.Proofs.Decoding

/-!
# Lossless inputs

An input is lossless where it hands out one byte string in order, whatever the sizes asked for,
and fails only when that string runs out. On such an input a decoder makes exactly what it makes
of the byte string (`exec_of_run`, `exec_of_run_error`).
-/

namespace TypedStream

/-- An input that hands out a byte string in order. -/
class Lossless (σ : Type) [ByteInput σ] where
  /-- The input stands at a position, and these bytes are all that is to come. -/
  Ahead : σ → Nat → Bytes → Prop
  pos_eq : ∀ {s p bytes}, Ahead s p bytes → ByteInput.pos s = p
  take_ok : ∀ {s p bytes count}, Ahead s p bytes → count ≤ bytes.length →
    ∃ s', ByteInput.take count s = .ok (bytes.take count) s' ∧
      Ahead s' (p + count) (bytes.drop count)
  /-- A request that cannot be met takes up all there is, but the position stays. -/
  take_short : ∀ {s p bytes count}, Ahead s p bytes → bytes.length < count →
    ∃ s', ByteInput.take count s = .error .endOfStream s' ∧ Ahead s' p []
  atEnd_ok : ∀ {s p bytes}, Ahead s p bytes →
    ∃ s', ByteInput.atEnd s = .ok bytes.isEmpty s' ∧ Ahead s' p bytes

open Lossless (Ahead)

section
variable {σ : Type} [ByteInput σ] [Lossless σ]

-- ---------------------------------------------------------------------------
-- Decoders
-- ---------------------------------------------------------------------------

/-- A run that succeeds takes up a front of the bytes ahead. -/
theorem exec_of_run {decoder : Decoder α} {s : σ} {p : Nat} {bytes rest : Bytes} {value : α}
    (ha : Ahead s p bytes) (h : decoder.run bytes = .ok (value, rest)) :
    ∃ s' used, decoder.exec s = .ok value s' ∧ bytes.drop used = rest ∧ used ≤ bytes.length ∧
      Ahead s' (p + used) rest := by
  induction decoder generalizing s p bytes with
  | done v =>
    simp only [Decoder.run_done, Except.ok.injEq, Prod.mk.injEq] at h
    obtain ⟨rfl, rfl⟩ := h
    exact ⟨s, 0, rfl, rfl, Nat.zero_le _, ha⟩
  | fail error => simp [Decoder.run] at h
  | need count next ih =>
    rw [Decoder.run_need] at h
    split at h
    · next hle =>
      obtain ⟨t, ht, hat⟩ := Lossless.take_ok ha hle
      obtain ⟨s', used, hs', hrest, hused, ha'⟩ := ih _ hat h
      refine ⟨s', count + used, ?_, ?_, ?_, ?_⟩
      · simp only [Decoder.exec, ht, hs']
      · rw [← hrest, List.drop_drop]
      · rw [List.length_drop] at hused
        omega
      · rwa [Nat.add_assoc] at ha'
    · cases h

theorem exec_front {decoder : Decoder α} {s : σ} {p : Nat} {front rest : Bytes} {value : α}
    (ha : Ahead s p (front ++ rest)) (h : decoder.run (front ++ rest) = .ok (value, rest)) :
    ∃ s', decoder.exec s = .ok value s' ∧ Ahead s' (p + front.length) rest := by
  obtain ⟨s', used, hs', hrest, hused, ha'⟩ := exec_of_run ha h
  have hlen := congrArg List.length hrest
  rw [List.length_drop, List.length_append] at hlen
  rw [List.length_append] at hused
  obtain rfl : used = front.length := by omega
  exact ⟨s', hs', ha'⟩

theorem exec_of_run_error {decoder : Decoder α} {s : σ} {p : Nat} {bytes : Bytes} {error : Error}
    (ha : Ahead s p bytes) (h : decoder.run bytes = .error error) :
    ∃ s', decoder.exec s = .error error s' := by
  induction decoder generalizing s p bytes with
  | done v => simp at h
  | fail e =>
    simp only [Decoder.run, Except.error.injEq] at h
    exact ⟨s, by rw [← h]; rfl⟩
  | need count next ih =>
    rw [Decoder.run_need] at h
    split at h
    · next hle =>
      obtain ⟨t, ht, hat⟩ := Lossless.take_ok ha hle
      obtain ⟨s', hs'⟩ := ih _ hat h
      exact ⟨s', by simp only [Decoder.exec, ht, hs']⟩
    · next hlt =>
      cases h
      obtain ⟨s', hs', -⟩ := Lossless.take_short ha (Nat.lt_of_not_le hlt)
      exact ⟨s', by simp only [Decoder.exec, hs']⟩

theorem run_of_exec {decoder : Decoder α} {s s' : σ} {p : Nat} {bytes : Bytes} {value : α}
    (ha : Ahead s p bytes) (h : decoder.exec s = .ok value s') :
    ∃ rest q, decoder.run bytes = .ok (value, rest) ∧ Ahead s' q rest := by
  cases hrun : decoder.run bytes with
  | error error =>
    obtain ⟨t, ht⟩ := exec_of_run_error ha hrun
    cases h.symm.trans ht
  | ok found =>
    obtain ⟨t, used, ht, -, -, hahead⟩ := exec_of_run ha hrun
    cases h.symm.trans ht
    exact ⟨_, _, rfl, hahead⟩

/-- What has been read is the reading of the bytes that it took. -/
theorem runAll_of_exec {decoder : Decoder α} {s s' : σ} {p : Nat} {bytes : Bytes} {value : α}
    (ha : Ahead s p bytes) (h : decoder.exec s = .ok value s') :
    ∃ front rest, bytes = front ++ rest ∧ decoder.runAll front = .ok value ∧
      Ahead s' (p + front.length) rest := by
  obtain ⟨rest, q, hrun, -⟩ := run_of_exec ha h
  obtain ⟨front, rfl, hfront⟩ := Decoder.run_eq_ok_iff.mp hrun
  obtain ⟨t, ht, hahead⟩ := exec_front ha hrun
  cases h.symm.trans ht
  exact ⟨front, rest, rfl, hfront, hahead⟩

theorem run_of_exec_error {decoder : Decoder α} {s s' : σ} {p : Nat} {bytes : Bytes} {error : Error}
    (ha : Ahead s p bytes) (h : decoder.exec s = .error error s') :
    decoder.run bytes = .error error := by
  cases hrun : decoder.run bytes with
  | error found =>
    obtain ⟨t, ht⟩ := exec_of_run_error ha hrun
    cases h.symm.trans ht
    rfl
  | ok found =>
    obtain ⟨t, used, ht, -, -, -⟩ := exec_of_run ha hrun
    cases h.symm.trans ht

-- ---------------------------------------------------------------------------
-- Counts and the end
-- ---------------------------------------------------------------------------

theorem tryVarint_nil {s : σ} {p : Nat} (ha : Ahead s p []) :
    ∃ s', tryVarint s = .ok none s' ∧ Ahead s' p [] := by
  obtain ⟨s', hs', ha'⟩ := Lossless.atEnd_ok ha
  exact ⟨s', bind_ok.mpr ⟨_, _, hs', rfl⟩, ha'⟩

theorem tryVarint_front {s : σ} {p n : Nat} {front rest : Bytes} (hne : front ≠ [])
    (ha : Ahead s p (front ++ rest)) (h : Decoder.varint.run (front ++ rest) = .ok (n, rest)) :
    ∃ s', tryVarint s = .ok (some n) s' ∧ Ahead s' (p + front.length) rest := by
  obtain ⟨t, ht, hat⟩ := Lossless.atEnd_ok ha
  obtain ⟨s', hs', ha'⟩ := exec_front hat h
  have hend : (front ++ rest).isEmpty = false := by simpa using fun h => absurd h hne
  rw [hend] at ht
  exact ⟨s', bind_ok.mpr ⟨_, _, ht, bind_ok.mpr ⟨_, _, hs', rfl⟩⟩, ha'⟩

/-- A varint that has begun fails as it would fail by itself. -/
theorem tryVarint_fails {s : σ} {p : Nat} {bytes : Bytes} {error : Error} (hne : bytes ≠ [])
    (ha : Ahead s p bytes) (h : Decoder.varint.run bytes = .error error) :
    ∃ s', tryVarint s = .error error s' := by
  obtain ⟨t, ht, hat⟩ := Lossless.atEnd_ok ha
  obtain ⟨s', hs'⟩ := exec_of_run_error hat h
  have hend : bytes.isEmpty = false := by simpa using hne
  refine ⟨s', ?_⟩
  simp only [tryVarint, bind, EStateM.bind, ht, hend, Bool.false_eq_true, if_false, hs']

end

end TypedStream
