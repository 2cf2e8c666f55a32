import TypedStream.Protocol

/-!
# The order of writing

Steps are written in protocol order. The state is the ordinal of the next step; a scalar write or
the end of a stream moves it on, an item of a stream leaves it where it is.
-/

namespace TypedStream

structure WriteOrder where
  protocol : Protocol
  /-- The step expected next; the step count once all are written. -/
  next : Nat := 0

namespace WriteOrder

def complete (order : WriteOrder) : Bool := order.next == order.protocol.stepCount

/-- The call that would be accepted. -/
def expected (order : WriteOrder) : Call :=
  match order.protocol.step? order.next with
  | some ⟨name, .stream⟩ => .writeOrFinish name
  | some ⟨name, .scalar⟩ => .write name
  | none => .close

def refuse (order : WriteOrder) (attempted : Call) : Except Error Unit :=
  .error (.protocol (.outOfOrder order.expected attempted))

def checkWrite (order : WriteOrder) (step : Nat) : Except Error Unit :=
  if order.next = step then .ok () else order.refuse (.write (order.protocol.stepLabel step))

def checkEnd (order : WriteOrder) (step : Nat) : Except Error Unit :=
  if order.next = step then .ok () else order.refuse (.finish (order.protocol.stepLabel step))

def checkClose (order : WriteOrder) : Except Error Unit :=
  if order.complete then .ok () else order.refuse .close

def finish (order : WriteOrder) (step : Nat) : WriteOrder := { order with next := step + 1 }

end WriteOrder

end TypedStream
