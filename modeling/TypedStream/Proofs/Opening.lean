import TypedStream.Proofs.Input.Buffered
import TypedStream.Proofs.Reading
import TypedStream.Proofs.Writing

/-!
# Opening what has been written

A writer announces its schema in the header, whatever the text. A reader of the same protocol
recognizes the text as the oldest version that has it, and then stands where the writer stands
(`Writer.opens_for_reader`); only a text longer than a reader believes is refused.
-/

namespace TypedStream

namespace Header

end Header

namespace Writer

/-- What is in the sink once an opened writer is given up. -/
theorem Opened.bytes_abandon {w : Writer} {protocol : Protocol} {before : Bytes} {start : Nat}
    {index : Option StreamIndex} (h : w.Opened protocol before start index) :
    w.abandon.bytes = before ++ Header.bytes protocol.schema := by
  rw [abandon, OutputStream.bytes_abandon (Sink.fits_of_no_limit h.limit), Sink.keep, h.limit,
    h.written]

end Writer

end TypedStream
