import TypedStream.Proofs.Delivery
import TypedStream.Proofs.Input.Buffered
import TypedStream.Proofs.Writing

/-!
# Files are read as they were written

Whatever calls write the parts of a file and whatever calls read them, every call succeeds and
the parts come back. The bytes in between do not tell how the readers will cut the streams, and
the readers do not see how the writers did.
-/

namespace TypedStream

namespace Ticks

/-- A label, a stream of items without bytes, and a stream of numbers. -/
def protocol : Protocol where
  name := "Ticks"
  steps := [⟨"label", .scalar⟩, ⟨"ticks", .stream⟩, ⟨"counts", .stream⟩]
  schema := "ticks"

def label : Datum .bool := ⟨.bool true, .bool true, true, rfl, rfl⟩

def tick : Datum .unit := ⟨.unit, .unit, rfl, rfl⟩

def seven : Datum (.int .u16) := ⟨.int 7, .int 7, 7, by decide, rfl, rfl⟩

def parts : List Part :=
  [.scalar .bool label,
   .stream .unit [⟨[tick, tick], by decide, trivial⟩, ⟨[], by decide, trivial⟩, .single tick],
   .stream (.int .u16) [.single seven]]

def calls : List WriteCall :=
  [.step .bool 0 (.bool true), .items .unit 1 [.unit, .unit], .items .unit 1 [], .flush,
   .item .unit 1 .unit, .endStream 1, .item (.int .u16) 2 (.int 7), .endStream 2]

def pulls : Nat → List Pull
  | 1 => [.item, .items 5 (by decide) [], .item]
  | _ => [.items 1 (by decide) [.unit], .items 1 (by decide) []]

theorem fill : Part.Fill protocol.steps parts := rfl

theorem script : Script 0 parts calls :=
  .scalar (.items (.items (.flush (.item (.endStream (.item (.endStream .nil)))))))

theorem drain : ∀ i (part : Part), parts[i]? = some part → part.Drain (pulls i)
  | 0, _, rfl => trivial
  | 1, _, rfl =>
    .inr ⟨List.cons_ne_nil _ _, .inr ⟨List.cons_ne_nil _ _, .inl ⟨rfl, rfl⟩⟩⟩
  | 2, _, rfl => .inr ⟨List.cons_ne_nil _ _, .inl ⟨rfl, rfl⟩⟩

end Ticks

end TypedStream
