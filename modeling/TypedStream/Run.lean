/-!
# Runs part by part

Operations with a state and errors are `EStateM` programs. A program that succeeds succeeds part
by part, and one that fails fails in its first part or behind it; these are the inversion lemmas
for its pieces.
-/

namespace TypedStream

theorem bind_ok {act : EStateM ε σ α} {f : α → EStateM ε σ β} {s s' : σ} {b : β} :
    (act >>= f) s = .ok b s' ↔ ∃ a t, act s = .ok a t ∧ f a t = .ok b s' := by
  simp only [bind, EStateM.bind]
  cases act s <;> simp [and_assoc]

theorem bind_error {act : EStateM ε σ α} {f : α → EStateM ε σ β} {s s' : σ} {e : ε} :
    (act >>= f) s = .error e s' ↔
      act s = .error e s' ∨ ∃ a t, act s = .ok a t ∧ f a t = .error e s' := by
  simp only [bind, EStateM.bind]
  cases act s <;> simp [and_assoc]

theorem pure_ok {a b : α} {s s' : σ} :
    (pure a : EStateM ε σ α) s = .ok b s' ↔ a = b ∧ s = s' := by
  simp [pure, EStateM.pure]

theorem map_inv {act : EStateM ε σ α} {f : α → β} {s s' : σ} {b : β}
    (h : (f <$> act) s = .ok b s') : ∃ a, act s = .ok a s' ∧ f a = b := by
  simp only [Functor.map, EStateM.map] at h
  split at h
  · next hact =>
    cases h
    exact ⟨_, hact, rfl⟩
  · cases h

theorem get_bind (f : σ → EStateM ε σ α) (s : σ) : (get >>= f) s = f s s := rfl

end TypedStream
