import TypedStream.Proofs.Input.Lossless

/-!
# Inputs that deliver alike

Two inputs, of one kind or of two, deliver alike where every request has one outcome on both. A
decoder cannot tell such inputs apart (`Congruent.exec`), since requests are all it makes.
-/

namespace TypedStream

-- ---------------------------------------------------------------------------
-- Programs
-- ---------------------------------------------------------------------------

/-- Two outcomes: one value in states related by `R`, or one error in states related by `E`. -/
def Related (R E : σ → τ → Prop) (x : EStateM.Result ε σ α) (y : EStateM.Result ε τ α) : Prop :=
  (∃ a s t, x = .ok a s ∧ y = .ok a t ∧ R s t) ∨ ∃ e s t, x = .error e s ∧ y = .error e t ∧ E s t

/-- In related states the two programs have related outcomes. -/
def Relates (R E : σ → τ → Prop) (act : EStateM ε σ α) (act' : EStateM ε τ α) : Prop :=
  ∀ s t, R s t → Related R E (act s) (act' t)

section
variable {R E : σ → τ → Prop}

theorem Related.of_ok {s : σ} {t : τ} (h : R s t) (a : α) :
    Related R E (.ok a s : EStateM.Result ε σ α) (.ok a t) := .inl ⟨a, s, t, rfl, rfl, h⟩

theorem Related.of_error {s : σ} {t : τ} (h : E s t) (e : ε) :
    Related R E (.error e s : EStateM.Result ε σ α) (.error e t) := .inr ⟨e, s, t, rfl, rfl, h⟩

theorem Related.weaken {E' : σ → τ → Prop} {x : EStateM.Result ε σ α} {y : EStateM.Result ε τ α}
    (h : Related R E x y) (hE : ∀ {s t}, E s t → E' s t) : Related R E' x y :=
  h.imp id fun ⟨e, s, t, hx, hy, hst⟩ => ⟨e, s, t, hx, hy, hE hst⟩

theorem Relates.pure (a : α) :
    Relates R E (pure a : EStateM ε σ α) (pure a : EStateM ε τ α) := fun _ _ h => .of_ok h a

theorem Relates.bind {act : EStateM ε σ α} {act' : EStateM ε τ α} {f : α → EStateM ε σ β}
    {f' : α → EStateM ε τ β} (h : Relates R E act act') (hf : ∀ a, Relates R E (f a) (f' a)) :
    Relates R E (act >>= f) (act' >>= f') := by
  intro s t hst
  rcases h s t hst with ⟨a, s', t', hs, ht, hrel⟩ | ⟨e, s', t', hs, ht, hrel⟩
  · simp only [Bind.bind, EStateM.bind, hs, ht]
    exact hf a s' t' hrel
  · simp only [Bind.bind, EStateM.bind, hs, ht]
    exact .of_error hrel e

theorem Relates.map {act : EStateM ε σ α} {act' : EStateM ε τ α} (h : Relates R E act act')
    (f : α → β) : Relates R E (f <$> act) (f <$> act') := by
  intro s t hst
  rcases h s t hst with ⟨a, s', t', hs, ht, hrel⟩ | ⟨e, s', t', hs, ht, hrel⟩
  · simp only [Functor.map, EStateM.map, hs, ht]
    exact .of_ok hrel (f a)
  · simp only [Functor.map, EStateM.map, hs, ht]
    exact .of_error hrel e

theorem Relates.modify {f : σ → σ} {g : τ → τ} (h : ∀ {s t}, R s t → R (f s) (g t)) :
    Relates R E (modify f : EStateM ε σ Unit) (modify g : EStateM ε τ Unit) :=
  fun _ _ hst => .of_ok (h hst) ()

end

-- ---------------------------------------------------------------------------
-- Inputs
-- ---------------------------------------------------------------------------

/-- Inputs related by `I` deliver alike. They stay related, by `J` once a request has failed. -/
structure Congruent [ByteInput σ] [ByteInput τ] (I J : σ → τ → Prop) : Prop where
  take : ∀ count, Relates I J (ByteInput.take count) (ByteInput.take count)
  atEnd : Relates I J ByteInput.atEnd ByteInput.atEnd
  weaken : ∀ {s t}, I s t → J s t

section
variable {σ τ : Type} [ByteInput σ] [ByteInput τ] {I J : σ → τ → Prop}

theorem Congruent.exec (h : Congruent I J) (decoder : Decoder α) :
    Relates I J decoder.exec decoder.exec := by
  induction decoder with
  | done value => exact fun _ _ hst => .of_ok hst value
  | fail error => exact fun _ _ hst => .of_error (h.weaken hst) error
  | need count next ih =>
    intro s t hst
    rcases h.take count s t hst with ⟨bytes, s', t', hs, ht, hrel⟩ | ⟨e, s', t', hs, ht, hrel⟩
    · simp only [Decoder.exec, hs, ht]
      exact ih bytes s' t' hrel
    · simp only [Decoder.exec, hs, ht]
      exact .of_error hrel e

theorem Congruent.tryVarint (h : Congruent I J) :
    Relates I J TypedStream.tryVarint TypedStream.tryVarint := by
  refine h.atEnd.bind fun ended => ?_
  cases ended with
  | true => exact .pure none
  | false => exact (h.exec Decoder.varint).bind fun n => .pure (some n)

theorem congruent_ahead [Lossless σ] :
    Congruent (fun s t : σ => ∃ p bytes, Lossless.Ahead s p bytes ∧ Lossless.Ahead t p bytes)
      (fun s t => ∃ p bytes, Lossless.Ahead s p bytes ∧ Lossless.Ahead t p bytes) where
  take := by
    rintro count s t ⟨p, bytes, hs, ht⟩
    by_cases hcount : count ≤ bytes.length
    · obtain ⟨s', hs', ha⟩ := Lossless.take_ok hs hcount
      obtain ⟨t', ht', ha'⟩ := Lossless.take_ok ht hcount
      exact .inl ⟨_, s', t', hs', ht', _, _, ha, ha'⟩
    · obtain ⟨s', hs', ha⟩ := Lossless.take_short hs (Nat.lt_of_not_le hcount)
      obtain ⟨t', ht', ha'⟩ := Lossless.take_short ht (Nat.lt_of_not_le hcount)
      exact .inr ⟨_, s', t', hs', ht', _, _, ha, ha'⟩
  atEnd := by
    rintro s t ⟨p, bytes, hs, ht⟩
    obtain ⟨s', hs', ha⟩ := Lossless.atEnd_ok hs
    obtain ⟨t', ht', ha'⟩ := Lossless.atEnd_ok ht
    exact .inl ⟨_, s', t', hs', ht', _, _, ha, ha'⟩
  weaken := id

end

end TypedStream
