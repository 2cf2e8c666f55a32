/-!
# Loops

A loop takes turns until one of them stops it. Written down turn by turn it need not end: `loop`
gives up after so many turns, and the loop halts if there are enough turns for an outcome. One that
goes on only to states that are closer to the end halts (`exists_halts_loop`).
-/

namespace TypedStream

/-- What one turn of a loop comes to. -/
inductive Turn (κ ρ : Type) where
  | again (state : κ)
  | stop (outcome : ρ)

def Turn.Meets (P : κ → Prop) (Q : ρ → Prop) : Turn κ ρ → Prop
  | again state => P state
  | stop outcome => Q outcome

/-- The loop, given up unless it stops within so many turns. A turn may itself contain a loop; that
one is given up after as many turns as are left. -/
def loop (turn : Nat → κ → Option (Turn κ ρ)) : (turns : Nat) → κ → Option ρ
  | 0, _ => none
  | turns + 1, state =>
    match turn turns state with
    | some (.again next) => loop turn turns next
    | some (.stop outcome) => some outcome
    | none => none

/-- Some number of turns is enough for the outcome, and further turns do not change it. -/
def Halts (run : Nat → Option ρ) (outcome : ρ) : Prop :=
  ∃ enough, ∀ turns, enough ≤ turns → run turns = some outcome

namespace Halts

variable {run : Nat → Option ρ} {outcome : ρ}

theorem of_some (h : ∀ turns, run turns = some outcome) : Halts run outcome :=
  ⟨0, fun turns _ => h turns⟩

theorem unique {outcome' : ρ} (h : Halts run outcome) (h' : Halts run outcome') :
    outcome = outcome' := by
  obtain ⟨m, hm⟩ := h
  obtain ⟨n, hn⟩ := h'
  have hfirst := hm (max m n) (Nat.le_max_left m n)
  rw [hn (max m n) (Nat.le_max_right m n)] at hfirst
  exact (Option.some.inj hfirst).symm

theorem map (h : Halts run outcome) (f : ρ → ρ') :
    Halts (fun turns => (run turns).map f) (f outcome) := by
  obtain ⟨enough, h⟩ := h
  exact ⟨enough, fun turns hle => by simp only [h turns hle, Option.map_some]⟩

end Halts

section
variable {turn : Nat → κ → Option (Turn κ ρ)} {state next : κ} {outcome : ρ}

theorem halts_loop_stop (h : Halts (turn · state) (.stop outcome)) :
    Halts (loop turn · state) outcome := by
  obtain ⟨enough, h⟩ := h
  refine ⟨enough + 1, fun turns hle => ?_⟩
  obtain ⟨turns, rfl⟩ := Nat.exists_eq_succ_of_ne_zero (Nat.ne_zero_of_lt hle)
  simp only [loop, h turns (Nat.le_of_succ_le_succ hle)]

theorem halts_loop_again (h : Halts (turn · state) (.again next))
    (hrest : Halts (loop turn · next) outcome) : Halts (loop turn · state) outcome := by
  obtain ⟨m, hm⟩ := h
  obtain ⟨n, hn⟩ := hrest
  refine ⟨max m n + 1, fun turns hle => ?_⟩
  obtain ⟨turns, rfl⟩ := Nat.exists_eq_succ_of_ne_zero (Nat.ne_zero_of_lt hle)
  have hle := Nat.le_of_succ_le_succ hle
  simp only [loop, hm turns (Nat.le_trans (Nat.le_max_left m n) hle)]
  exact hn turns (Nat.le_trans (Nat.le_max_right m n) hle)

/-- What every turn keeps holds of whatever the loop comes to, if it comes to anything. -/
theorem loop_meets {P : κ → Prop} {Q : ρ → Prop}
    (hturn : ∀ turns state result, P state → turn turns state = some result → result.Meets P Q)
    (hstate : P state) {turns : Nat} (h : loop turn turns state = some outcome) : Q outcome := by
  induction turns generalizing state with
  | zero => cases h
  | succ turns ih =>
    rw [loop] at h
    split at h
    · next hnext => exact ih (hturn _ _ _ hstate hnext) h
    · next hstop =>
      cases h
      exact hturn _ _ _ hstate hstop
    · cases h

/-- Each turn halts, and if the loop goes on, it does so closer to the end. -/
theorem exists_halts_loop {P : κ → Prop} {Q : ρ → Prop} {R : κ → κ → Prop} (hwf : WellFounded R)
    (hturn : ∀ state, P state →
      ∃ result, Halts (turn · state) result ∧ result.Meets (fun next => P next ∧ R next state) Q)
    (state : κ) (hstate : P state) : ∃ outcome, Halts (loop turn · state) outcome ∧ Q outcome := by
  induction state using hwf.induction with
  | _ state ih =>
    obtain ⟨result, hhalts, hmeets⟩ := hturn state hstate
    cases result with
    | stop outcome => exact ⟨outcome, halts_loop_stop hhalts, hmeets⟩
    | again next =>
      obtain ⟨hnext, hcloser⟩ := hmeets
      obtain ⟨outcome, hrest, houtcome⟩ := ih next hcloser hnext
      exact ⟨outcome, halts_loop_again hhalts hrest, houtcome⟩

end

end TypedStream
