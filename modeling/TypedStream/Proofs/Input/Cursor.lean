import TypedStream.Input.Cursor

/-!
# What a cursor can read

A cursor hands out its content up to its bound: the fault, if one stands inside the content, or the
end. Behind the bound there is one error to meet (`ByteCursor.shortage`), and it is the same
wherever the request begins.
-/

namespace TypedStream.ByteCursor

/-- The error of a request that passes the bound. -/
def shortage (c : ByteCursor) : Error :=
  match c.faultAhead? with
  | some fault => Error.ofFault fault
  | none => .endOfStream

variable {c c' : ByteCursor} {limit count : Nat} {fault : DeviceFault}

theorem take_eq (count : Nat) (c : ByteCursor) :
    take count c =
      if count = 0 ∨ c.pos + count ≤ c.bound then
        .ok (c.rest.take count) { c with pos := c.pos + count }
      else .error c.shortage c := by
  unfold take shortage
  cases c.faultAhead? <;> rfl

theorem bound_le_fault (h : c.fault = some (limit, fault)) : c.bound ≤ limit := by
  simp only [bound, h]
  exact Nat.min_le_left _ _

theorem bound_of_no_fault (h : c.fault = none) : c.bound = c.content.length := by
  simp only [bound, h]

theorem le_bound {n : Nat} (hcontent : n ≤ c.content.length)
    (hfault : ∀ {limit fault}, c.fault = some (limit, fault) → n ≤ limit) : n ≤ c.bound := by
  unfold bound
  split
  · next hsome => exact Nat.le_min.mpr ⟨hfault hsome, hcontent⟩
  · exact hcontent

theorem fault_of_here (h : c.faultHere? = some fault) :
    ∃ limit, c.fault = some (limit, fault) ∧ limit ≤ c.pos := by
  unfold faultHere? at h
  split at h
  · next limit here hfault =>
    split at h
    · next hle =>
      cases h
      exact ⟨limit, hfault, hle⟩
    · cases h
  · cases h

theorem lt_of_clear (h : c.faultHere? = none) (hfault : c.fault = some (limit, fault)) :
    c.pos < limit := by
  simp only [faultHere?, hfault] at h
  split at h
  · cases h
  · omega

theorem bound_le_pos (h : c.faultHere? = some fault) : c.bound ≤ c.pos := by
  obtain ⟨limit, hfault, hle⟩ := fault_of_here h
  exact Nat.le_trans (bound_le_fault hfault) hle

-- ---------------------------------------------------------------------------
-- Behind the bound
-- ---------------------------------------------------------------------------

theorem shortage_of_fault (h : c.faultHere? = some fault) : c.shortage = Error.ofFault fault := by
  obtain ⟨limit, hfault, hle⟩ := fault_of_here h
  simp only [shortage, faultAhead?, hfault, if_pos (Nat.le_trans hle (Nat.le_max_left _ _))]

theorem shortage_of_ended (hclear : c.faultHere? = none) (hend : c.content.length ≤ c.pos) :
    c.shortage = .endOfStream := by
  unfold shortage faultAhead?
  cases hfault : c.fault with
  | none => rfl
  | some found =>
    have hlt := lt_of_clear hclear hfault
    have hbehind : ¬found.1 ≤ max c.pos c.content.length := by omega
    simp only [if_neg hbehind]

/-- On the way to the bound the error behind it does not change. -/
theorem shortage_moved (h : c.pos + count ≤ c.bound) :
    shortage { c with pos := c.pos + count } = c.shortage := by
  have hle := c.bound_le
  have hhere : max c.pos c.content.length = c.content.length := by omega
  have hthere : max (c.pos + count) c.content.length = c.content.length := by omega
  simp only [shortage, faultAhead?, hhere, hthere]

-- ---------------------------------------------------------------------------
-- What succeeds stays in front of the bound
-- ---------------------------------------------------------------------------

theorem exec_within {decoder : Decoder α} {value : α} (h : decoder.exec c = .ok value c') :
    c'.pos ≤ max c.pos c.bound ∧ c'.fault = c.fault ∧ c'.bound = c.bound := by
  induction decoder generalizing c with
  | done found =>
    cases h
    exact ⟨Nat.le_max_left _ _, rfl, rfl⟩
  | fail error => cases h
  | need count next ih =>
    simp only [Decoder.exec, ByteInput.take, take_eq] at h
    split at h
    · next bytes moved htake =>
      split at htake
      · next hcount =>
        cases htake
        obtain ⟨hpos, hfault, hbound⟩ := ih _ h
        have hsame : bound { c with pos := c.pos + count } = c.bound := rfl
        rw [hsame] at hpos hbound
        refine ⟨?_, hfault, hbound⟩
        dsimp only at hpos
        omega
      · cases htake
    · cases h

theorem atEnd_ok {ended : Bool} (h : atEnd c = .ok ended c') :
    c' = c ∧ c.faultHere? = none ∧ ended = decide (c.content.length ≤ c.pos) := by
  unfold atEnd at h
  split at h
  · cases h
  · next hclear =>
    cases h
    exact ⟨rfl, hclear, rfl⟩

theorem seek_end (c : ByteCursor) {offset : Int} (h : offset < 0) :
    seek offset c =
      if c.endSeeks = some 0 then
        .error (Error.ofFault c.endFault) { c with endSeeks := none }
      else if (c.content.length : Int) + offset < 0 then
        .error (.io .invalidInput) { c with endSeeks := c.endSeeks.map (· - 1) }
      else
        .ok ((c.content.length : Int) + offset).toNat { c with
          pos := ((c.content.length : Int) + offset).toNat
          endSeeks := c.endSeeks.map (· - 1) } := by
  rcases c with ⟨content, pos, fault, _ | _ | count, endFault⟩ <;> simp [seek, h]

end TypedStream.ByteCursor
