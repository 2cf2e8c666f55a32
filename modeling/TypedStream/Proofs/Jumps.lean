import TypedStream.RandomAccess
import TypedStream.Proofs.Assoc
import TypedStream.Run

/-!
# Where a seek goes

A seek looks up a target in the index and jumps there. A lookup that fails, and one that finds that
a stream has no such item, leaves the reader alone (`IndexedReader.seekStep_eq`,
`IndexedReader.seekItem_eq`).
-/

namespace TypedStream

theorem StreamIndex.mem_of_stepOffset {index : StreamIndex} {name : String} {offset : Nat}
    (h : index.stepOffset name = .ok offset) : (name, offset) ∈ index.steps := by
  unfold stepOffset at h
  split at h
  · next found hfound =>
    cases h
    exact Assoc.mem_of_find? hfound
  · cases h

theorem StreamIndex.getElem?_of_find {index : StreamIndex} {name : String} {item : Nat}
    {location : ItemLocation} (h : index.find name item = .ok location) :
    (index.itemsOf name)[item]? = some location.offset := by
  unfold find at h
  dsimp only at h
  split at h
  · cases h
  · next hoffset =>
    cases h
    exact hoffset

theorem StreamIndex.find_of_getElem? {index : StreamIndex} {name : String} {item offset : Nat}
    (h : (index.itemsOf name)[item]? = some offset) :
    ∃ location, index.find name item = .ok location ∧ location.offset = offset := by
  simp only [find, h]
  exact ⟨_, rfl, rfl⟩

namespace IndexedReader

section
variable {σ : Type} [SeekableInput σ]

/-- Where a step starts, if the protocol and the index have it. -/
def stepTarget (r : IndexedReader σ) (step : Nat) : Except Error Nat :=
  r.stepName step >>= r.index.stepOffset

/-- Where an item lies, if the stream has so many. -/
def itemTarget (r : IndexedReader σ) (step item : Nat) : Except Error (Option ItemLocation) := do
  let name ← r.streamName step
  if r.index.count name ≤ item then return none
  else return some (← r.index.find name item)

theorem seekStep_eq (step : Nat) (r : IndexedReader σ) :
    seekStep step r =
      match r.stepTarget step with
      | .error error => .error error r
      | .ok offset => jump offset step 0 r := by
  unfold seekStep stepTarget
  cases r.stepName step with
  | error error => rfl
  | ok name => cases hoffset : r.index.stepOffset name <;> simp only [bind, Except.bind, hoffset]

theorem seekItem_eq (step item : Nat) (r : IndexedReader σ) :
    seekItem step item r =
      match r.itemTarget step item with
      | .error error => .error error r
      | .ok none => .ok false r
      | .ok (some location) =>
        ((fun _ => true) <$> jump location.offset step location.remaining) r := by
  unfold seekItem itemTarget
  cases r.streamName step with
  | error error => rfl
  | ok name =>
    by_cases hcount : r.index.count name ≤ item
    · simp only [bind, Except.bind, hcount, if_true, pure, Except.pure]
    · cases hfind : r.index.find name item with
      | error error => simp only [bind, Except.bind, hcount, if_false, hfind]
      | ok location =>
        simp only [bind, Except.bind, hcount, if_false, hfind, pure, Except.pure, Functor.map,
          EStateM.map]
        cases jump location.offset step location.remaining r <;> rfl

section
variable {r r' : IndexedReader σ} {step item : Nat} {name : String}

theorem seekStep_run (hname : r.stepName step = .ok name) {offset : Nat}
    (hoffset : r.index.stepOffset name = .ok offset) : seekStep step r = jump offset step 0 r := by
  simp only [seekStep, hname, hoffset]

theorem seekItem_run (hname : r.streamName step = .ok name) (hcount : item < r.index.count name)
    {location : ItemLocation} (hfind : r.index.find name item = .ok location)
    (hjump : jump location.offset step location.remaining r = .ok () r') :
    seekItem step item r = .ok true r' := by
  simp only [seekItem, hname, if_neg (Nat.not_le.mpr hcount), hfind, hjump]

end

omit [SeekableInput σ] in
theorem stepTarget_inv {r : IndexedReader σ} {step offset : Nat}
    (h : r.stepTarget step = .ok offset) :
    ∃ name, r.stepName step = .ok name ∧ r.index.stepOffset name = .ok offset := by
  unfold stepTarget at h
  cases hname : r.stepName step with
  | error error =>
    rw [hname] at h
    cases h
  | ok name =>
    rw [hname] at h
    exact ⟨name, rfl, h⟩

omit [SeekableInput σ] in
theorem itemTarget_inv {r : IndexedReader σ} {step item : Nat} {found : Option ItemLocation}
    (h : r.itemTarget step item = .ok found) :
    ∃ name, r.streamName step = .ok name ∧
      ((r.index.count name ≤ item ∧ found = none) ∨
        ∃ location, r.index.find name item = .ok location ∧ found = some location) := by
  unfold itemTarget at h
  cases hname : r.streamName step with
  | error error =>
    rw [hname] at h
    cases h
  | ok name =>
    rw [hname] at h
    refine ⟨name, rfl, ?_⟩
    simp only [bind, Except.bind] at h
    split at h
    · next hcount =>
      cases h
      exact .inl ⟨hcount, rfl⟩
    · cases hfind : r.index.find name item with
      | error error =>
        rw [hfind] at h
        cases h
      | ok location =>
        rw [hfind] at h
        cases h
        exact .inr ⟨location, rfl, rfl⟩

variable {r r' : IndexedReader σ} {offset step remaining : Nat}

theorem jump_run {place : Nat} {input : σ}
    (h : SeekableInput.seek (signedOffset offset) r.reader.input = .ok place input) :
    jump offset step remaining r = .ok () { r with
      reader := { r.reader with input, order := r.reader.order.jump step, remaining } } := by
  have hmoved : onReader (Reader.onInput (SeekableInput.seek (signedOffset offset))) r =
      .ok place { r with reader := { r.reader with input } } := by
    simp only [onReader, Reader.onInput, h]
  exact bind_ok.mpr ⟨_, _, hmoved, rfl⟩

theorem jump_inv (h : jump offset step remaining r = .ok () r') :
    ∃ place input, SeekableInput.seek (signedOffset offset) r.reader.input = .ok place input ∧
      r' = { r with
        reader := { r.reader with input, order := r.reader.order.jump step, remaining } } := by
  obtain ⟨place, moved, hseek, hdone⟩ := bind_ok.mp h
  cases hdone
  unfold onReader Reader.onInput at hseek
  split at hseek
  · next hinput =>
    cases hseek
    split at hinput
    · next hinput' =>
      cases hinput
      exact ⟨_, _, hinput', rfl⟩
    · cases hinput
  · cases hseek

theorem jump_failed {error : Error} (h : jump offset step remaining r = .error error r') :
    ∃ input, SeekableInput.seek (signedOffset offset) r.reader.input = .error error input ∧
      r' = { r with reader := { r.reader with input } } := by
  rcases bind_error.mp h with hseek | ⟨_, _, _, hdone⟩
  · unfold onReader Reader.onInput at hseek
    split at hseek
    · cases hseek
    · next hinput =>
      cases hseek
      split at hinput
      · cases hinput
      · next hinput' =>
        cases hinput
        exact ⟨_, hinput', rfl⟩
  · cases hdone

theorem seekStep_ok (h : seekStep step r = .ok () r') :
    ∃ offset, r.stepTarget step = .ok offset ∧ jump offset step 0 r = .ok () r' := by
  rw [seekStep_eq] at h
  cases htarget : r.stepTarget step with
  | error error =>
    rw [htarget] at h
    cases h
  | ok offset =>
    rw [htarget] at h
    exact ⟨offset, rfl, h⟩

theorem seekStep_failed {error : Error} (h : seekStep step r = .error error r') :
    r' = r ∨ ∃ offset, r.stepTarget step = .ok offset ∧ jump offset step 0 r = .error error r' := by
  rw [seekStep_eq] at h
  cases htarget : r.stepTarget step with
  | error error =>
    rw [htarget] at h
    cases h
    exact .inl rfl
  | ok offset =>
    rw [htarget] at h
    exact .inr ⟨offset, rfl, h⟩

theorem seekItem_ok {item : Nat} {found : Bool} (h : seekItem step item r = .ok found r') :
    (found = false ∧ r.itemTarget step item = .ok none ∧ r' = r) ∨
      ∃ location, found = true ∧ r.itemTarget step item = .ok (some location) ∧
        jump location.offset step location.remaining r = .ok () r' := by
  rw [seekItem_eq] at h
  cases htarget : r.itemTarget step item with
  | error error =>
    rw [htarget] at h
    cases h
  | ok target =>
    rw [htarget] at h
    cases target with
    | none =>
      cases h
      exact .inl ⟨rfl, rfl, rfl⟩
    | some location =>
      obtain ⟨⟨⟩, hjump, rfl⟩ := map_inv h
      exact .inr ⟨location, rfl, rfl, hjump⟩

theorem seekItem_failed {item : Nat} {error : Error} (h : seekItem step item r = .error error r') :
    r' = r ∨ ∃ location, r.itemTarget step item = .ok (some location) ∧
      jump location.offset step location.remaining r = .error error r' := by
  rw [seekItem_eq] at h
  cases htarget : r.itemTarget step item with
  | error error =>
    rw [htarget] at h
    cases h
    exact .inl rfl
  | ok target =>
    rw [htarget] at h
    cases target with
    | none => cases h
    | some location =>
      refine .inr ⟨location, rfl, ?_⟩
      simp only [Functor.map, EStateM.map] at h
      split at h
      · cases h
      · next hjump =>
        cases h
        exact hjump

end

end IndexedReader

end TypedStream
