import TypedStream.Proofs.Input.Stationed

/-!
# Programs that move forward

A program on an input stream moves forward if, where it succeeds, the stream still reads from its
device and stands no further back in the content (`InputStream.Forward`). What is left of the
content has then not grown. Decoders move forward whatever they ask for; so do programs that look
for the end of the input, and what is put together from programs that do.
-/

namespace TypedStream

/-- The results of `count` runs of a program, one after the other. -/
def repeated (act : EStateM ε σ α) : (count : Nat) → EStateM ε σ (List α)
  | 0 => pure []
  | count + 1 => do
    let value ← act
    let values ← repeated act count
    return value :: values

namespace InputStream

variable {source : Source}

/-- The bytes left are those of the content from the place of the stream on. -/
theorem Upon.left_eq {s : InputStream} (h : s.Upon source) :
    s.left = source.content.size - s.place := by
  have hplace := h.intact.place_add_buffered
  have hbuffered : s.buffered ≤ s.steady.ahead.length := buffered_le (s := s.steady) h.intact.sound
  rw [length_ahead] at hbuffered
  have hsize : s.source.content.size = source.content.size := by rw [h.later.content]
  rw [← hsize, left]
  simp only [steady, place, buffered] at *
  omega

/-- Where the program succeeds, it leaves the stream on its device and no further back. -/
def Forward (source : Source) (act : EStateM Error InputStream α) : Prop :=
  ∀ ⦃s t value⦄, s.Upon source → act s = .ok value t → t.Upon source ∧ s.place ≤ t.place

theorem Forward.left_le {act : EStateM Error InputStream α} (h : Forward source act)
    {s t : InputStream} {value : α} (hs : s.Upon source) (hact : act s = .ok value t) :
    t.left ≤ s.left := by
  obtain ⟨ht, hplace⟩ := h hs hact
  rw [hs.left_eq, ht.left_eq]
  exact Nat.sub_le_sub_left hplace _

-- ---------------------------------------------------------------------------
-- Composition
-- ---------------------------------------------------------------------------

theorem forward_pure (value : α) : Forward source (pure value) := by
  intro s t found hs hpure
  obtain ⟨-, rfl⟩ := pure_ok.mp hpure
  exact ⟨hs, Nat.le_refl _⟩

theorem Forward.bind {act : EStateM Error InputStream α} {f : α → EStateM Error InputStream β}
    (h : Forward source act) (hf : ∀ value, Forward source (f value)) :
    Forward source (act >>= f) := by
  intro s t found hs hbind
  obtain ⟨value, u, hact, hrest⟩ := bind_ok.mp hbind
  obtain ⟨hu, hle⟩ := h hs hact
  obtain ⟨ht, hle'⟩ := hf value hu hrest
  exact ⟨ht, Nat.le_trans hle hle'⟩

theorem Forward.repeated {act : EStateM Error InputStream α} (h : Forward source act)
    (count : Nat) : Forward source (repeated act count) := by
  induction count with
  | zero => exact forward_pure []
  | succ count ih => exact h.bind fun value => ih.bind fun values => forward_pure (value :: values)

-- ---------------------------------------------------------------------------
-- Requests
-- ---------------------------------------------------------------------------

theorem forward_take (count : Nat) : Forward source (InputStream.take count) := by
  intro s t bytes hs htake
  by_cases hcount : count = 0 ∨ s.place + count ≤ s.cursor.bound
  · obtain ⟨_, hok, u, hadv, rfl⟩ := hs.intact.take_ok hcount
    rw [hok] at htake
    cases htake
    refine ⟨(hs.advance hadv).at _, ?_⟩
    show s.place ≤ u.place
    rw [hadv.place]
    exact Nat.le_add_right _ _
  · obtain ⟨hne, hshort⟩ := not_or.mp hcount
    obtain ⟨u, hfails, -⟩ := hs.intact.take_short hne (Nat.lt_of_not_le hshort)
    rw [hfails] at htake
    cases htake

theorem forward_atEnd : Forward source InputStream.atEnd := by
  intro s t ended hs hend
  cases hfault : s.cursor.faultHere? with
  | some fault =>
    obtain ⟨u, hfails, -⟩ := hs.intact.atEnd_fault hfault
    rw [hfails] at hend
    cases hend
  | none =>
    obtain ⟨u, hok, hadv⟩ := hs.intact.atEnd_ok hfault
    rw [hok] at hend
    cases hend
    exact ⟨hs.advance hadv, Nat.le_of_eq hadv.place.symm⟩

theorem forward_exec (decoder : Decoder α) :
    Forward source (decoder.exec : EStateM Error InputStream α) := by
  induction decoder with
  | done value => exact forward_pure value
  | fail error =>
    intro s t value _ hfail
    cases hfail
  | need count next ih =>
    intro s t value hs hexec
    simp only [Decoder.exec] at hexec
    split at hexec
    · next bytes u htake =>
      obtain ⟨hu, hle⟩ := forward_take count hs htake
      obtain ⟨ht, hle'⟩ := ih bytes hu hexec
      exact ⟨ht, Nat.le_trans hle hle'⟩
    · cases hexec

theorem forward_tryVarint : Forward source (tryVarint : EStateM Error InputStream (Option Nat)) := by
  refine forward_atEnd.bind fun ended => ?_
  cases ended with
  | true => exact forward_pure none
  | false => exact (forward_exec Decoder.varint).bind fun count => forward_pure (some count)

end InputStream

end TypedStream
