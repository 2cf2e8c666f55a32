import TypedStream.Protocol

/-!
# The order of reading

Steps are read in protocol order. Besides standing before a step, a reader may know that a stream
has ended while its caller does not: a batch read that drains a stream leaves it so. The next read
of that stream then reports the end without touching the input, and the next step may be read as
well.
-/

namespace TypedStream

inductive ReadPlace where
  | at (step : Nat)
  /-- After the last item of a stream whose end has not been reported. -/
  | drained (step : Nat)
  deriving DecidableEq, Repr

namespace ReadPlace

def step : ReadPlace → Nat
  | .at step => step
  | .drained step => step

/-- Places as numbers, in the order in which a reader passes them. -/
def code : ReadPlace → Nat
  | .at step => 2 * step
  | .drained step => 2 * step + 1

end ReadPlace

inductive StreamRead where
  | proceed
  | finished
  deriving DecidableEq, Repr

structure ReadOrder where
  protocol : Protocol
  place : ReadPlace := .at 0

namespace ReadOrder

def complete (order : ReadOrder) : Bool := order.place == .at order.protocol.stepCount

def call (order : ReadOrder) (step : Nat) : Call :=
  if step = order.protocol.stepCount then .close else .read (order.protocol.stepLabel step)

def refuse (order : ReadOrder) (step : Nat) : Except Error α :=
  .error (.protocol (.outOfOrder (order.call order.place.step) (order.call step)))

/-- A scalar step may be read here, or after the stream before it. -/
def beginScalar (order : ReadOrder) (step : Nat) : Except Error ReadOrder :=
  match order.place with
  | .at here => if here = step then .ok order else order.refuse step
  | .drained before =>
    if before + 1 = step then .ok { order with place := .at step } else order.refuse step

/-- A stream may be read here or after the stream before it; a drained stream is finished. -/
def beginStream (order : ReadOrder) (step : Nat) : Except Error (StreamRead × ReadOrder) :=
  match order.place with
  | .at here => if here = step then .ok (.proceed, order) else order.refuse step
  | .drained before =>
    if before = step then .ok (.finished, { order with place := .at (step + 1) })
    else if before + 1 = step then .ok (.proceed, { order with place := .at step })
    else order.refuse step

def finish (order : ReadOrder) (step : Nat) : ReadOrder := { order with place := .at (step + 1) }

def drain (order : ReadOrder) (step : Nat) : ReadOrder := { order with place := .drained step }

def jump (order : ReadOrder) (step : Nat) : ReadOrder := { order with place := .at step }

def checkClose (order : ReadOrder) : Except Error Unit :=
  if order.complete then .ok () else order.refuse order.protocol.stepCount

end ReadOrder

end TypedStream
