import TypedStream.Order.Writing

/-!
# Calls by name

A refusal names the call that has been made and the one that was expected, or the two between
which the caller may choose. It is a guide where steps have different names: the name of a call
then tells its step, and a call by an expected name is in order (`Call.guides`).
-/

namespace TypedStream

-- ---------------------------------------------------------------------------
-- Names
-- ---------------------------------------------------------------------------

namespace Call

/-- The single calls between which the caller may choose. -/
def options : Call → List Call
  | writeOrFinish step => [write step, finish step]
  | call => [call]

def single : Call → Bool
  | writeOrFinish _ => false
  | _ => true

/-- The first letter of the method. -/
def initial : Call → Char
  | write _ | writeOrFinish _ => 'w'
  | finish _ => 'e'
  | read _ => 'r'
  | close => 'c'

theorem text_write (step : String) : (write step).text = "'write_" ++ step ++ "()'" := rfl

theorem text_finish (step : String) : (finish step).text = "'end_" ++ step ++ "()'" := rfl

theorem text_read (step : String) : (read step).text = "'read_" ++ step ++ "()'" := rfl

theorem text_writeOrFinish (step : String) :
    (writeOrFinish step).text = "'write_" ++ step ++ "()' or 'end_" ++ step ++ "()'" := rfl

theorem text_options (call : Call) : call.text = " or ".intercalate (call.options.map text) := by
  cases call with
  | writeOrFinish step =>
    have hjoin : "()' or 'end_" = "()'" ++ " or " ++ "'end_" := rfl
    show _ = (write step).text ++ " or " ++ (finish step).text
    rw [text_writeOrFinish, text_write, text_finish, hjoin]
    simp only [String.append_assoc]
  | _ => rfl

theorem getElem?_text (call : Call) : call.text.toList[1]? = some call.initial := by
  cases call with
  | write step => simp [text_write, initial]
  | finish step => simp [text_finish, initial]
  | writeOrFinish step => simp [text_writeOrFinish, initial]
  | read step => simp [text_read, initial]
  | close => rfl

/-- Single calls that read the same are the same. -/
theorem eq_of_text {a b : Call} (ha : a.single = true) (hb : b.single = true)
    (h : a.text = b.text) : a = b := by
  have hinitial : some a.initial = some b.initial := by
    rw [← getElem?_text, ← getElem?_text, h]
  cases a with
  | writeOrFinish => cases ha
  | write | finish | read =>
    cases b with
    | writeOrFinish => cases hb
    | write | finish | read => simp_all [text_write, text_finish, text_read, initial]
    | close => simp [initial] at hinitial
  | close => cases b <;> simp_all [initial, single]

theorem single_of_mem_options {call option : Call} (h : option ∈ call.options) :
    option.single = true := by
  cases call <;> simp_all [options, single]
  rcases h with rfl | rfl <;> rfl

end Call

-- ---------------------------------------------------------------------------
-- Guides
-- ---------------------------------------------------------------------------

/-- What a refusal says to a caller whose request was `attempted` where `expected` was: `name` is
what requests are called, `fits` tells those that suit a step of the protocol, and `passes` those
that are in order. -/
structure Call.Guides {ρ : Type} (name : ρ → Option Call) (fits passes : ρ → Prop)
    (request : ρ) (expected attempted : Call) : Prop where
  attempted_eq : name request = some attempted
  message_eq : (Refusal.outOfOrder expected attempted).message =
    "Expected call to " ++ " or ".intercalate (expected.options.map Call.text) ++
      " but received call to " ++ attempted.text ++ " instead."
  differs : ∀ option ∈ expected.options, option ≠ attempted ∧ option.text ≠ attempted.text
  exists_named : ∀ option ∈ expected.options, ∃ next, fits next ∧ name next = some option
  passes_named : ∀ option ∈ expected.options, ∀ next, fits next → name next = some option →
    passes next

/-- If requests by an expected name pass, then one that does not has another name. -/
theorem Call.guides {ρ : Type} {name : ρ → Option Call} {fits on passes : ρ → Prop} {request : ρ}
    {expected attempted : Call} (hattempted : name request = some attempted)
    (hsingle : attempted.single = true) (hon : on request) (hstop : ¬ passes request)
    (hfits : ∀ next, fits next → on next)
    (hoptions : ∀ option ∈ expected.options, (∃ next, fits next ∧ name next = some option) ∧
      ∀ next, on next → name next = some option → passes next) :
    Guides name fits passes request expected attempted where
  attempted_eq := hattempted
  message_eq := by
    rw [← text_options]
    rfl
  differs option hmem := by
    have hne : option ≠ attempted := by
      rintro rfl
      exact hstop ((hoptions option hmem).2 request hon hattempted)
    exact ⟨hne, fun htext => hne (eq_of_text (single_of_mem_options hmem) hsingle htext)⟩
  exists_named option hmem := (hoptions option hmem).1
  passes_named option hmem next hnext := (hoptions option hmem).2 next (hfits next hnext)

-- ---------------------------------------------------------------------------
-- Steps and their names
-- ---------------------------------------------------------------------------

/-- The error does not say that a call was out of order. -/
def Error.InTurn (error : Error) : Prop :=
  ∀ expected attempted, error ≠ .protocol (.outOfOrder expected attempted)

theorem Error.inTurn_io (fault : DeviceFault) : (Error.io fault).InTurn := fun _ _ => nofun

theorem Error.inTurn_zeroCapacity : Error.zeroCapacity.InTurn := fun _ _ => nofun

theorem Error.inTurn_of_fatal {error : Error} (h : error.fatal = true) : error.InTurn := by
  rintro expected attempted rfl
  cases h

namespace Protocol

variable {p : Protocol} {i j : Nat} {kind : StepKind}

theorem stepLabel_eq {step : Step} (h : p.step? i = some step) : p.stepLabel i = step.name := by
  rw [stepLabel, h]
  rfl

theorem exists_step (h : i < p.stepCount) : ∃ step, p.step? i = some step :=
  ⟨_, List.getElem?_eq_getElem h⟩

theorem lt_stepCount {step : Step} (h : p.step? i = some step) : i < p.stepCount :=
  (List.getElem?_eq_some_iff.mp h).1

theorem stepLabel_inj (hnames : (p.steps.map Step.name).Nodup) (hi : i < p.stepCount)
    (hj : j < p.stepCount) (h : p.stepLabel i = p.stepLabel j) : i = j := by
  have hlabel : ∀ {k}, k < p.stepCount →
      (p.steps.map Step.name)[k]? = some (p.stepLabel k) := by
    intro k hk
    obtain ⟨step, hstep⟩ := exists_step hk
    rw [stepLabel_eq hstep, List.getElem?_map, ← step?, hstep]
    rfl
  have hlength : i < (p.steps.map Step.name).length := by rwa [List.length_map]
  refine (List.getElem?_inj hlength hnames).mp ?_
  rw [hlabel hi, hlabel hj, h]

/-- A step is looked up in vain only where it is missing or of the other kind. -/
theorem stepOfKind_cases (p : Protocol) (i : Nat) (kind : StepKind) :
    (∃ name, p.step? i = some ⟨name, kind⟩ ∧ p.stepOfKind i kind = .ok ⟨name, kind⟩) ∨
    (¬ (∃ name, p.step? i = some ⟨name, kind⟩) ∧ ∃ refusal, (Error.protocol refusal).InTurn ∧
      p.stepOfKind i kind = .error (.protocol refusal)) := by
  cases hstep : p.step? i with
  | none =>
    refine .inr ⟨by simp, .noStep p.name i, fun _ _ => nofun, ?_⟩
    simp only [stepOfKind, hstep]
  | some step =>
    by_cases hkind : step.kind = kind
    · subst hkind
      refine .inl ⟨step.name, rfl, ?_⟩
      simp only [stepOfKind, hstep, if_true]
    · refine .inr ⟨?_, .wrongKind p.name step.name kind, fun _ _ => nofun, ?_⟩
      · rintro ⟨name, hsame⟩
        cases hsame
        exact hkind rfl
      · simp only [stepOfKind, hstep, if_neg hkind]

end Protocol

end TypedStream
