import TypedStream.Decoder
import Mathlib.Data.List.Forall2

/-!
# Runs of decoders

What decoders make of a byte string, combinator by combinator. A decoder sees its input only
through its requests, so a run takes up a front of the input, is the same whatever follows that
front (`run_append`), and finds the input truncated if the front is cut short (`run_take`).
-/

namespace TypedStream.Decoder

-- ---------------------------------------------------------------------------
-- Combinators
-- ---------------------------------------------------------------------------

@[simp] theorem run_done (value : α) (bytes : Bytes) :
    (done value).run bytes = .ok (value, bytes) :=
  rfl

@[simp] theorem run_pure (value : α) (bytes : Bytes) :
    (pure value : Decoder α).run bytes = .ok (value, bytes) := rfl

theorem run_bind (decoder : Decoder α) (f : α → Decoder β) (bytes : Bytes) :
    (decoder >>= f).run bytes =
      match decoder.run bytes with
      | .ok (value, rest) => (f value).run rest
      | .error error => .error error := by
  show (decoder.bind f).run bytes = _
  induction decoder generalizing bytes with
  | done value => rfl
  | fail error => rfl
  | need count next ih =>
    simp only [bind, run]
    split
    · exact ih _ _
    · rfl

theorem run_bind_ok {decoder : Decoder α} {f : α → Decoder β} {bytes rest : Bytes} {value : α}
    (h : decoder.run bytes = .ok (value, rest)) :
    (decoder >>= f).run bytes = (f value).run rest := by
  rw [run_bind, h]

theorem run_bind_error {decoder : Decoder α} {f : α → Decoder β} {bytes : Bytes} {error : Error}
    (h : decoder.run bytes = .error error) : (decoder >>= f).run bytes = .error error := by
  rw [run_bind, h]

theorem run_bind_iff {decoder : Decoder α} {f : α → Decoder β} {bytes rest : Bytes} {value : β} :
    (decoder >>= f).run bytes = .ok (value, rest) ↔
      ∃ first more, decoder.run bytes = .ok (first, more) ∧
        (f first).run more = .ok (value, rest) := by
  rw [run_bind]
  cases decoder.run bytes with
  | ok found =>
    obtain ⟨first, more⟩ := found
    simp [and_assoc]
  | error => simp

theorem run_bind_fails {decoder : Decoder α} {f : α → Decoder β} {bytes : Bytes} {error : Error} :
    (decoder >>= f).run bytes = .error error ↔
      decoder.run bytes = .error error ∨
        ∃ first more, decoder.run bytes = .ok (first, more) ∧
          (f first).run more = .error error := by
  rw [run_bind]
  cases decoder.run bytes with
  | ok found =>
    obtain ⟨first, more⟩ := found
    simp [and_assoc]
  | error => simp

theorem run_bind_congr {decoder decoder' : Decoder α} {f f' : α → Decoder β} {bytes : Bytes}
    (h : decoder.run bytes = decoder'.run bytes)
    (hf : ∀ value rest, (f value).run rest = (f' value).run rest) :
    (decoder >>= f).run bytes = (decoder' >>= f').run bytes := by
  rw [run_bind, run_bind, h]
  cases decoder'.run bytes with
  | error error => rfl
  | ok found => exact hf found.1 found.2

theorem run_map (f : α → β) (decoder : Decoder α) (bytes : Bytes) :
    (f <$> decoder).run bytes =
      match decoder.run bytes with
      | .ok (value, rest) => .ok (f value, rest)
      | .error error => .error error :=
  run_bind decoder (fun value => pure (f value)) bytes

theorem run_map_ok {decoder : Decoder α} {f : α → β} {bytes rest : Bytes} {value : α}
    (h : decoder.run bytes = .ok (value, rest)) :
    (f <$> decoder).run bytes = .ok (f value, rest) := by
  rw [run_map, h]

theorem run_map_ite {decoder : Decoder α} {bytes rest : Bytes} {value : α} {error : Error}
    {p : Prop} [Decidable p] (h : decoder.run bytes = if p then .ok (value, rest) else .error error)
    (f : α → β) :
    (f <$> decoder).run bytes = if p then .ok (f value, rest) else .error error := by
  rw [run_map, h]
  by_cases hp : p <;> simp [hp]

theorem run_need (count : Nat) (next : Bytes → Decoder α) (bytes : Bytes) :
    (need count next).run bytes =
      if count ≤ bytes.length then (next (bytes.take count)).run (bytes.drop count)
      else .error .endOfStream := by
  have hlength : (bytes.take count).length = count ↔ count ≤ bytes.length := by
    rw [List.length_take]
    omega
  simp only [run, hlength]

theorem run_need_append (next : Bytes → Decoder α) (front rest : Bytes) :
    (need front.length next).run (front ++ rest) = (next front).run rest := by
  simp [run_need]

theorem run_bytes_append (front rest : Bytes) :
    (bytes front.length).run (front ++ rest) = .ok (front, rest) := by
  rw [bytes, run_need_append, run_done]

@[simp] theorem run_byte_cons (b : UInt8) (rest : Bytes) :
    byte.run (b :: rest) = .ok (b, rest) := run_need_append _ [b] rest

theorem run_fixed_littleEndian (width n : Nat) (rest : Bytes) (h : n < wordLimit width) :
    (fixed width).run (littleEndian width n ++ rest) = .ok (n, rest) := by
  have hr := run_need_append (fun bytes => done (ofLittleEndian bytes)) (littleEndian width n) rest
  rw [length_littleEndian] at hr
  rw [fixed, hr, run_done, ofLittleEndian_littleEndian width n h]

theorem run_bytes_ok {count : Nat} {bytes front rest : Bytes}
    (h : (Decoder.bytes count).run bytes = .ok (front, rest)) :
    front.length = count ∧ bytes = front ++ rest := by
  rw [Decoder.bytes, run_need] at h
  split at h
  · next hle =>
    simp only [run_done, Except.ok.injEq, Prod.mk.injEq] at h
    obtain ⟨rfl, rfl⟩ := h
    exact ⟨List.length_take_of_le hle, (List.take_append_drop _ _).symm⟩
  · cases h

theorem run_bytes_error {count : Nat} {bytes : Bytes} {error : Error}
    (h : (Decoder.bytes count).run bytes = .error error) : error = .endOfStream := by
  rw [Decoder.bytes, run_need] at h
  split at h
  · cases h
  · exact (Except.error.inj h).symm

theorem run_fixed_eq (width : Nat) (bytes : Bytes) :
    (fixed width).run bytes =
      if width ≤ bytes.length then .ok (ofLittleEndian (bytes.take width), bytes.drop width)
      else .error .endOfStream := by
  rw [fixed, run_need]
  rfl

theorem run_fixed_ok {width n : Nat} {bytes rest : Bytes}
    (h : (fixed width).run bytes = .ok (n, rest)) : bytes = littleEndian width n ++ rest := by
  rw [run_fixed_eq] at h
  split at h
  · next hle =>
    simp only [Except.ok.injEq, Prod.mk.injEq] at h
    obtain ⟨rfl, rfl⟩ := h
    have hback := littleEndian_ofLittleEndian (bytes.take width)
    rw [List.length_take_of_le hle] at hback
    rw [hback, List.take_append_drop]
  · cases h

theorem run_collect {item : Decoder α} {encode : β → Bytes} {values : List α} {written : List β}
    (h : List.Forall₂ (fun v w => ∀ rest, item.run (encode w ++ rest) = .ok (v, rest))
      values written) (found : List α) (rest : Bytes) :
    (item.collect values.length found).run (written.flatMap encode ++ rest) =
      .ok (found.reverse ++ values, rest) := by
  induction h generalizing found with
  | nil => simp [collect]
  | @cons v w vs ws hv _ ih =>
    rw [List.length_cons, collect_succ, List.flatMap_cons, List.append_assoc]
    show (item >>= fun v => item.collect vs.length (v :: found)).run _ = _
    rw [run_bind_ok (hv _), ih]
    simp

theorem run_times {item : Decoder α} {encode : β → Bytes} {values : List α} {written : List β}
    (h : List.Forall₂ (fun v w => ∀ rest, item.run (encode w ++ rest) = .ok (v, rest))
      values written) (rest : Bytes) :
    (item.times values.length).run (written.flatMap encode ++ rest) = .ok (values, rest) := by
  simpa [times] using run_collect h [] rest

-- ---------------------------------------------------------------------------
-- Values one by one
-- ---------------------------------------------------------------------------

/-- What has been collected before does not show in what is read. -/
theorem run_collect_eq (item : Decoder α) (count : Nat) (found : List α) (bytes : Bytes) :
    (item.collect count found).run bytes =
      ((found.reverse ++ ·) <$> item.times count).run bytes := by
  induction count generalizing found bytes with
  | zero => simp [times, collect, run_map]
  | succ count ih =>
    have hstep : ∀ found, (item.collect (count + 1) found).run bytes =
        (item >>= fun value => item.collect count (value :: found)).run bytes := by
      intro found
      rw [collect_succ]
      rfl
    rw [run_map, times, hstep, hstep, run_bind, run_bind]
    cases item.run bytes with
    | error error => rfl
    | ok first =>
      obtain ⟨value, after⟩ := first
      dsimp only
      rw [ih, ih, run_map, run_map]
      cases (item.times count).run after with
      | error error => rfl
      | ok more => simp

theorem run_times_zero (item : Decoder α) (bytes : Bytes) :
    (item.times 0).run bytes = .ok ([], bytes) := rfl

theorem run_times_cons (item : Decoder α) (count : Nat) (bytes : Bytes) :
    (item.times (count + 1)).run bytes =
      (do return (← item) :: (← item.times count)).run bytes := by
  rw [times, collect_succ]
  exact @run_bind_congr _ _ item item _ _ bytes rfl fun value rest =>
    run_collect_eq item count [value] rest

theorem run_times_one (item : Decoder α) (bytes : Bytes) :
    (item.times 1).run bytes = (([·]) <$> item).run bytes := by
  rw [run_times_cons, run_bind, run_map]
  cases item.run bytes <;> rfl

theorem run_times_add (item : Decoder α) (m n : Nat) (bytes : Bytes) :
    (item.times (m + n)).run bytes =
      (do return (← item.times m) ++ (← item.times n)).run bytes := by
  induction m generalizing bytes with
  | zero =>
    rw [Nat.zero_add, run_bind_ok (run_times_zero item bytes), run_bind]
    cases (item.times n).run bytes <;> rfl
  | succ m ih =>
    rw [Nat.add_right_comm, run_times_cons, run_bind, run_bind, run_times_cons, run_bind]
    cases item.run bytes with
    | error error => rfl
    | ok first =>
      obtain ⟨value, after⟩ := first
      dsimp only
      rw [run_bind, ih, run_bind, run_bind]
      cases (item.times m).run after with
      | error error => rfl
      | ok front =>
        obtain ⟨values, last⟩ := front
        dsimp only
        rw [run_bind, run_pure]
        dsimp only
        rw [run_bind]
        cases (item.times n).run last <;> rfl

section
variable {item : Decoder α} {bytes rest : Bytes} {values : List α}

theorem run_times_succ {count : Nat} :
    (item.times (count + 1)).run bytes = .ok (values, rest) ↔
      ∃ value after more, item.run bytes = .ok (value, after) ∧
        (item.times count).run after = .ok (more, rest) ∧ values = value :: more := by
  rw [run_times_cons, run_bind_iff]
  simp only [run_bind_iff, run_pure, Except.ok.injEq, Prod.mk.injEq]
  grind

theorem length_of_times {count : Nat} (h : (item.times count).run bytes = .ok (values, rest)) :
    values.length = count := by
  induction count generalizing bytes values with
  | zero =>
    cases h
    rfl
  | succ count ih =>
    obtain ⟨value, after, more, -, hmore, rfl⟩ := run_times_succ.mp h
    rw [List.length_cons, ih hmore]

end

-- ---------------------------------------------------------------------------
-- Locality
-- ---------------------------------------------------------------------------

/-- What follows the bytes that a run takes up does not matter. -/
theorem run_append {decoder : Decoder α} {bytes rest : Bytes} {value : α}
    (h : decoder.run bytes = .ok (value, rest)) (more : Bytes) :
    decoder.run (bytes ++ more) = .ok (value, rest ++ more) := by
  induction decoder generalizing bytes with
  | done v =>
    simp only [run_done, Except.ok.injEq, Prod.mk.injEq] at h
    simp [h.1, h.2]
  | fail error => simp [run] at h
  | need count next ih =>
    rw [run_need] at h ⊢
    split at h
    · next hle =>
      have hmore : count ≤ (bytes ++ more).length := by
        rw [List.length_append]
        omega
      rw [if_pos hmore, List.take_append_of_le_length hle, List.drop_append_of_le_length hle]
      exact ih _ h
    · cases h

/-- A run takes up a front of the bytes, and would take up that front alone. -/
theorem run_front {decoder : Decoder α} {bytes rest : Bytes} {value : α}
    (h : decoder.run bytes = .ok (value, rest)) :
    ∃ front, bytes = front ++ rest ∧ decoder.run front = .ok (value, []) := by
  induction decoder generalizing bytes with
  | done v =>
    simp only [run_done, Except.ok.injEq, Prod.mk.injEq] at h
    obtain ⟨rfl, rfl⟩ := h
    exact ⟨[], rfl, rfl⟩
  | fail error => cases h
  | need count next ih =>
    rw [run_need] at h
    split at h
    · next hle =>
      obtain ⟨front, hfront, hrun⟩ := ih _ h
      have hlength : (bytes.take count).length = count := List.length_take_of_le hle
      refine ⟨bytes.take count ++ front, ?_, ?_⟩
      · rw [List.append_assoc, ← hfront, List.take_append_drop]
      · have happend := run_need_append next (bytes.take count) front
        rw [hlength] at happend
        rw [happend, hrun]
    · cases h

theorem runAll_eq_ok {decoder : Decoder α} {bytes : Bytes} {value : α} :
    decoder.runAll bytes = .ok value ↔ decoder.run bytes = .ok (value, []) := by
  unfold runAll
  split
  · next found hrun => simp [hrun]
  · next found hne hrun =>
    simp only [hrun, reduceCtorEq, Except.ok.injEq, false_iff]
    rintro rfl
    exact hne value rfl
  · next error hrun => simp [hrun]

theorem run_eq_ok_iff {decoder : Decoder α} {bytes rest : Bytes} {value : α} :
    decoder.run bytes = .ok (value, rest) ↔
      ∃ front, bytes = front ++ rest ∧ decoder.runAll front = .ok value := by
  simp only [runAll_eq_ok]
  constructor
  · exact run_front
  · rintro ⟨front, rfl, hrun⟩
    exact run_append hrun rest

/-- A run that gets less than it takes up finds the input truncated. -/
theorem run_take {decoder : Decoder α} {bytes rest : Bytes} {value : α}
    (h : decoder.run bytes = .ok (value, rest)) {cut : Nat}
    (hc : cut + rest.length < bytes.length) :
    decoder.run (bytes.take cut) = .error .endOfStream := by
  induction decoder generalizing bytes cut with
  | done v =>
    simp only [run_done, Except.ok.injEq, Prod.mk.injEq] at h
    rw [h.2] at hc
    omega
  | fail error => simp [run] at h
  | need count next ih =>
    rw [run_need] at h ⊢
    split at h
    · next hle =>
      rw [List.length_take]
      split
      · have hfront : (bytes.take cut).take count = bytes.take count := by
          rw [List.take_take, Nat.min_eq_left (by omega)]
        rw [hfront, List.drop_take]
        exact ih _ h (by rw [List.length_drop]; omega)
      · rfl
    · cases h

theorem run_take_front {decoder : Decoder α} {front rest : Bytes} {value : α}
    (h : decoder.run (front ++ rest) = .ok (value, rest)) {cut : Nat} (hc : cut < front.length) :
    decoder.run (front.take cut) = .error .endOfStream := by
  have ht : decoder.run ((front ++ rest).take cut) = .error .endOfStream :=
    run_take h (by rw [List.length_append]; omega)
  rwa [List.take_append_of_le_length (Nat.le_of_lt hc)] at ht

-- ---------------------------------------------------------------------------
-- Whole inputs
-- ---------------------------------------------------------------------------

theorem runAll_pure {value found : α} {bytes : Bytes} :
    (pure value : Decoder α).runAll bytes = .ok found ↔ found = value ∧ bytes = [] := by
  rw [runAll_eq_ok, run_pure, Except.ok.injEq, Prod.mk.injEq, eq_comm]

theorem runAll_fail {error : Error} {bytes : Bytes} {value : α} :
    (fail error).runAll bytes ≠ .ok value := by
  rw [Ne, runAll_eq_ok]
  nofun

theorem runAll_malformed {cause : Malformed} {bytes : Bytes} {value : α} :
    (malformed cause).runAll bytes ≠ .ok value := runAll_fail

theorem runAll_bind {decoder : Decoder α} {f : α → Decoder β} {bytes : Bytes} {value : β} :
    (decoder >>= f).runAll bytes = .ok value ↔
      ∃ first front back, bytes = front ++ back ∧ decoder.runAll front = .ok first ∧
        (f first).runAll back = .ok value := by
  simp only [runAll_eq_ok, run_bind_iff]
  constructor
  · rintro ⟨first, back, hfirst, hrest⟩
    obtain ⟨front, rfl, hfront⟩ := run_front hfirst
    exact ⟨first, front, back, rfl, hfront, hrest⟩
  · rintro ⟨first, front, back, rfl, hfirst, hrest⟩
    exact ⟨first, back, run_append hfirst back, hrest⟩

theorem runAll_map {decoder : Decoder α} {f : α → β} {bytes : Bytes} {value : β} :
    (f <$> decoder).runAll bytes = .ok value ↔
      ∃ found, decoder.runAll bytes = .ok found ∧ value = f found := by
  rw [show f <$> decoder = decoder >>= fun found => pure (f found) from rfl, runAll_bind]
  simp only [runAll_pure]
  constructor
  · rintro ⟨found, front, back, rfl, hfound, hvalue, rfl⟩
    rw [List.append_nil]
    exact ⟨found, hfound, hvalue⟩
  · rintro ⟨found, hfound, hvalue⟩
    exact ⟨found, bytes, [], (List.append_nil _).symm, hfound, hvalue, rfl⟩

theorem runAll_bytes {count : Nat} {input found : Bytes} :
    (bytes count).runAll input = .ok found ↔ found = input ∧ input.length = count := by
  rw [runAll_eq_ok]
  constructor
  · intro h
    obtain ⟨hlength, hinput⟩ := run_bytes_ok h
    rw [List.append_nil] at hinput
    exact ⟨hinput.symm, hinput ▸ hlength⟩
  · rintro ⟨rfl, rfl⟩
    have hrun := run_bytes_append found []
    rwa [List.append_nil] at hrun

theorem runAll_byte {input : Bytes} {b : UInt8} : byte.runAll input = .ok b ↔ input = [b] := by
  have hbyte : byte = (·.headD 0) <$> bytes 1 := rfl
  rw [hbyte, runAll_map]
  simp only [runAll_bytes]
  constructor
  · rintro ⟨_, ⟨rfl, hlength⟩, rfl⟩
    obtain ⟨c, rfl⟩ := List.length_eq_one_iff.mp hlength
    rfl
  · rintro rfl
    exact ⟨[b], ⟨rfl, rfl⟩, rfl⟩

theorem runAll_fixed {width n : Nat} {input : Bytes} :
    (fixed width).runAll input = .ok n ↔ n = ofLittleEndian input ∧ input.length = width := by
  have hfixed : fixed width = ofLittleEndian <$> bytes width := rfl
  rw [hfixed, runAll_map]
  simp only [runAll_bytes]
  constructor
  · rintro ⟨_, ⟨rfl, hlength⟩, hn⟩
    exact ⟨hn, hlength⟩
  · rintro ⟨hn, hlength⟩
    exact ⟨input, ⟨rfl, hlength⟩, hn⟩

theorem runAll_need_zero {next : Bytes → Decoder α} {input : Bytes} :
    (need 0 next).runAll input = (next []).runAll input := by
  rw [runAll, runAll, run_need, if_pos (Nat.zero_le _)]
  rfl

/-- Single values one after the other, each from a piece of the input. -/
theorem runAll_times {item : Decoder α} {count : Nat} {input : Bytes} {values : List α} :
    (item.times count).runAll input = .ok values ↔
      ∃ pieces, input = pieces.flatten ∧ values.length = count ∧
        List.Forall₂ (fun piece value => item.runAll piece = .ok value) pieces values := by
  induction count generalizing input values with
  | zero =>
    rw [show item.times 0 = pure [] from rfl, runAll_pure]
    constructor
    · rintro ⟨rfl, rfl⟩
      exact ⟨[], rfl, rfl, .nil⟩
    · rintro ⟨pieces, rfl, hlength, hpieces⟩
      obtain rfl := List.eq_nil_of_length_eq_zero hlength
      cases hpieces
      exact ⟨rfl, rfl⟩
  | succ count ih =>
    have hcons : (item.times (count + 1)).runAll input =
        (do return (← item) :: (← item.times count)).runAll input := by
      rw [runAll, run_times_cons]
      rfl
    rw [hcons, runAll_bind]
    simp only [runAll_bind, runAll_pure, ih]
    constructor
    · rintro ⟨value, front, _, rfl, hvalue, _, _, _, rfl, ⟨pieces, rfl, rfl, hpieces⟩, rfl, rfl⟩
      rw [List.append_nil]
      exact ⟨front :: pieces, rfl, rfl, .cons hvalue hpieces⟩
    · rintro ⟨pieces, rfl, hlength, hpieces⟩
      cases hpieces with
      | nil => cases hlength
      | @cons piece value pieces values hvalue hpieces =>
        exact ⟨value, piece, pieces.flatten, rfl, hvalue, values, pieces.flatten, [],
          (List.append_nil _).symm, ⟨pieces, rfl, Nat.succ.inj hlength, hpieces⟩, rfl, rfl⟩

end TypedStream.Decoder
