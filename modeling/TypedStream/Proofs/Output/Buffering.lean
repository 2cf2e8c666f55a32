import TypedStream.Proofs.Accepted

/-!
# Output buffering loses and reorders nothing

An output stream is given values and runs of values to put down, and is flushed in between. However
large its buffer, its sink holds at every moment a front of what it held before and the encodings
of the calls, and in the end as much of that as it has room for (`OutputStream.keeps_order`). A
call fails only for want of room.
-/

namespace TypedStream

inductive OutputCall where
  | byte (b : UInt8)
  | bytes (data : Bytes)
  | varint (n : Nat)
  | zigzag (v : Int)
  | fixed (width n : Nat)
  | value (type : Ty) (v : Value)
  | values (type : Ty) (vs : List Value)
  | flush

namespace OutputCall

/-- The writes that the call makes, one after the other. -/
def writes : OutputCall → List Bytes
  | .byte b => [[b]]
  | .bytes data => [data]
  | .varint n => [TypedStream.varint n]
  | .zigzag v => [TypedStream.varint (TypedStream.zigzag v)]
  | .fixed width n => [littleEndian width n]
  | .value type v => type.codec.writes v
  | .values type vs => type.codec.runWrites vs
  | .flush => []

def encoding (call : OutputCall) : Bytes := call.writes.flatten

def run : OutputCall → EStateM Error OutputStream Unit
  | .flush => OutputStream.flush
  | call => OutputStream.putAll call.writes

/-- The calls one after the other, up to the first that fails. -/
def runAll : List OutputCall → EStateM Error OutputStream Unit
  | [] => pure ()
  | call :: calls => do
    call.run
    runAll calls

def encodings (calls : List OutputCall) : Bytes := calls.flatMap encoding

theorem encodings_cons (call : OutputCall) (calls : List OutputCall) :
    encodings (call :: calls) = call.encoding ++ encodings calls := List.flatMap_cons

variable {s : OutputStream}

/-- A call does all its writes, or those in front of one that the sink has no room for. -/
theorem run_spec (h : s.sink.Fits) (call : OutputCall) :
    (∃ t, call.run s = .ok () t ∧ OutputStream.Took s t call.encoding) ∨
    ∃ t limit front, call.run s = .error (.io .other) t ∧
      OutputStream.Overflowed s t call.encoding limit ∧ front <+: call.writes ∧
      (front = call.writes → call = .flush) ∧ t.pos = s.pos + front.flatten.length := by
  by_cases hflush : call = .flush
  · subst hflush
    have hnothing : encoding .flush = [] := rfl
    rw [hnothing]
    rcases OutputStream.flush_spec h with ⟨t, ht, htook, -, -⟩ | ⟨t, limit, ht, hover, hpos⟩
    · exact .inl ⟨t, ht, htook⟩
    · exact .inr ⟨t, limit, [], ht, hover, List.nil_prefix, fun _ => rfl, hpos⟩
  · have hrun : call.run = OutputStream.putAll call.writes := by
      cases call with
      | flush => exact absurd rfl hflush
      | _ => rfl
    rw [hrun]
    rcases OutputStream.putAll_spec h call.writes with
      ⟨t, ht, htook⟩ | ⟨t, limit, front, data, rest, ht, hover, hwrites, hpos⟩
    · exact .inl ⟨t, ht, htook⟩
    · refine .inr ⟨t, limit, front, ht, hover, ⟨data :: rest, hwrites.symm⟩, fun hall => ?_, hpos⟩
      have hlength := congrArg List.length (hall.trans hwrites)
      rw [List.length_append, List.length_cons] at hlength
      omega

theorem runAll_spec (h : s.sink.Fits) (calls : List OutputCall) :
    (∃ t, runAll calls s = .ok () t ∧ OutputStream.Took s t (encodings calls)) ∨
    ∃ t limit done call rest front, runAll calls s = .error (.io .other) t ∧
      calls = done ++ call :: rest ∧
      OutputStream.Overflowed s t (encodings done ++ call.encoding) limit ∧
      front <+: call.writes ∧ (front = call.writes → call = .flush) ∧
      t.pos = s.pos + (encodings done).length + front.flatten.length := by
  induction calls generalizing s with
  | nil => exact .inl ⟨s, rfl, .refl h⟩
  | cons call calls ih =>
    rcases run_spec h call with ⟨t, ht, htook⟩ | ⟨t, limit, front, ht, hover, hfront, hall, hpos⟩
    · rcases ih htook.fits with ⟨u, hu, htook'⟩ |
        ⟨u, limit, done, failed, rest, front, hu, rfl, hover, hfront, hall, hpos⟩
      · exact .inl ⟨u, bind_ok.mpr ⟨(), t, ht, hu⟩, htook.trans htook'⟩
      · refine .inr ⟨u, limit, call :: done, failed, rest, front,
          bind_error.mpr (.inr ⟨(), t, ht, hu⟩), rfl, ?_, hfront, hall, ?_⟩
        · rw [encodings_cons, List.append_assoc]
          exact hover.after htook
        · rw [hpos, htook.pos, encodings_cons, List.length_append]
          omega
    · exact .inr ⟨t, limit, [], call, calls, front, bind_error.mpr (.inl ht), rfl, hover, hfront,
        hall, hpos⟩

end OutputCall

-- ---------------------------------------------------------------------------
-- However a stream ends
-- ---------------------------------------------------------------------------

/-- A writer that is closed has handed its sink all it has written, and its index. -/
theorem Writer.bytes_close {w : Writer} {sink : Sink} (h : w.close = (.ok (), sink)) :
    sink.bytes = w.out.written ++ w.sectionBytes := by
  obtain ⟨hcomplete, hclose⟩ := close_unlimited h
  have hnext : w.order.next = w.order.protocol.stepCount := by
    simpa [WriteOrder.complete] using hcomplete
  obtain ⟨sink', hclose', hbytes⟩ := close_ok (w := w.unlimited) rfl hnext
  cases hclose.symm.trans hclose'
  exact hbytes

namespace OutputStream

/-- `all` has been written, what was in the sink before included: nothing is lost or out of order,
however the stream comes to its end. -/
structure Keeps (s : OutputStream) (sink : Sink) (all : Bytes) : Prop where
  taken : s.sink.bytes <+: all
  flushed : ∀ t, flush s = .ok () t → t.sink.bytes = all
  closed : ∀ sink', s.close = (.ok (), sink') → sink'.bytes = all
  finished : ∀ order index sink', Writer.close { out := s, order, index } = (.ok (), sink') →
    sink'.bytes = all ++ Writer.sectionBytes { out := s, order, index }
  /-- Flushing and closing fail only for want of room. -/
  short : ∀ error, (∃ t, flush s = .error error t) ∨ s.close.1 = .error error →
    ∃ limit, sink.limit = some limit ∧ limit < all.length
  released : s.close.2.bytes = sink.keep all
  abandoned : s.abandon.bytes = sink.keep all

theorem keeps_written {s : OutputStream} (h : s.sink.Fits) {sink : Sink}
    (hlimit : s.sink.limit = sink.limit) : s.Keeps sink s.written where
  taken := List.prefix_append _ _
  flushed t ht := by
    rcases flush_spec h with ⟨t', ht', htook, hempty, -⟩ | ⟨_, _, ht', -⟩
    · cases ht.symm.trans ht'
      exact htook.emptied hempty
    · cases ht.symm.trans ht'
  closed sink' hclose := by
    rcases close_spec h with ⟨_, hclose', hbytes, -⟩ | ⟨_, _, hclose', -⟩
    · cases hclose.symm.trans hclose'
      exact hbytes
    · cases hclose.symm.trans hclose'
  finished order index sink' hclose := Writer.bytes_close hclose
  short error herror := by
    rcases herror with ⟨t, ht⟩ | hclose
    · rcases flush_spec h with ⟨_, ht', -⟩ | ⟨_, limit, -, hover, -⟩
      · cases ht.symm.trans ht'
      · have hlong := hover.exceeds
        rw [List.append_nil] at hlong
        exact ⟨limit, hlimit.symm.trans hover.limit_before, hlong⟩
    · rcases close_spec h with ⟨_, hclose', -⟩ | ⟨_, limit, hclose', hroom, hlong, -⟩
      · rw [hclose'] at hclose
        cases hclose
      · exact ⟨limit, hlimit.symm.trans hroom, hlong⟩
  released := by rw [bytes_close h, Sink.keep_congr hlimit]
  abandoned := by rw [bytes_abandon h, Sink.keep_congr hlimit]

/-- Whatever the size of the buffer, and wherever the sink runs out of room, what it holds is a
front of what it held before and the encodings of the calls in order, and all of that it has room
for in the end. A call fails only for want of room; of one that fails, the writes in front of the
one that does not fit count. -/
theorem keeps_order {sink : Sink} (h : sink.Fits) (bufferSize offset : Nat)
    (calls : List OutputCall) :
    (∀ t, OutputCall.runAll calls (OutputStream.open sink bufferSize offset) = .ok () t →
      t.pos = offset + (OutputCall.encodings calls).length ∧
        t.Keeps sink (sink.bytes ++ OutputCall.encodings calls)) ∧
    ∀ error t,
      OutputCall.runAll calls (OutputStream.open sink bufferSize offset) = .error error t →
      ∃ done call rest front, calls = done ++ call :: rest ∧
        (∃ limit, sink.limit = some limit ∧
          limit < (sink.bytes ++ (OutputCall.encodings done ++ call.encoding)).length) ∧
        front <+: call.writes ∧ (front = call.writes → call = .flush) ∧
        t.pos = offset + (OutputCall.encodings done).length + front.flatten.length ∧
        t.sink.bytes <+: sink.bytes ++ (OutputCall.encodings done ++ call.encoding) ∧
        t.abandon.bytes =
          sink.keep (sink.bytes ++ (OutputCall.encodings done ++ call.encoding)) := by
  have hopen := written_open sink bufferSize offset
  rcases OutputCall.runAll_spec (s := OutputStream.open sink bufferSize offset) h calls with
    ⟨t, ht, htook⟩ |
    ⟨t, limit, done, call, rest, front, ht, hcalls, hover, hfront, hall, hpos⟩
  · refine ⟨fun t' ht' => ?_, fun error t' ht' => ?_⟩
    · cases ht.symm.trans ht'
      have hkeeps : t.Keeps sink t.written := keeps_written htook.fits htook.limit
      rw [htook.written, hopen] at hkeeps
      exact ⟨htook.pos, hkeeps⟩
    · cases ht.symm.trans ht'
  · refine ⟨fun t' ht' => ?_, fun error t' ht' => ?_⟩
    · cases ht.symm.trans ht'
    cases ht.symm.trans ht'
    have hlong := hover.exceeds
    have hfull := hover.full
    have habandon := hover.bytes_abandon
    rw [hopen] at hlong hfull habandon
    refine ⟨done, call, rest, front, hcalls, ⟨limit, hover.limit_before, hlong⟩, hfront, hall, hpos,
      ?_, habandon⟩
    rw [hfull]
    exact List.take_prefix limit _

/-- A string of ten letters, as many as the smallest buffer holds. It is two writes, one of its
length and one of its text. -/
def letters : OutputCall := .value .string (.string "tenletters")

theorem run_letters :
    letters.run = putAll [[10], [116, 101, 110, 108, 101, 116, 116, 101, 114, 115]] := by
  have hwrites : letters.writes = [[10], [116, 101, 110, 108, 101, 116, 116, 101, 114, 115]] := by
    decide +kernel
  rw [← hwrites]
  rfl

theorem split_letters {done rest : List OutputCall} {call : OutputCall}
    (h : [letters] = done ++ call :: rest) : done = [] ∧ call = letters := by
  cases done with
  | nil => exact ⟨rfl, (List.cons.inj h).1.symm⟩
  | cons => cases (List.append_eq_nil_iff.mp (List.cons.inj h).2.symm).2

/-- Two calls are gathered in the buffer, and only a part of them is taken in the end. Of the
letters a sink takes the length, and has no room for the text. -/
theorem keeps_order_cut :
    let sink : Sink := { held := .ofList [170], limit := some 4 }
    let full : Sink := { held := .ofList [170], limit := some 2 }
    sink.Fits ∧ full.Fits ∧
    (∃ t,
      OutputCall.runAll [.byte 1, .bytes [2, 3, 4, 5]] (OutputStream.open sink 0 1) = .ok () t ∧
        t.pos = 6 ∧ t.sink.bytes <+: [170, 1, 2, 3, 4, 5] ∧ t.abandon.bytes = [170, 1, 2, 3]) ∧
    ∃ t, OutputCall.runAll [letters] (OutputStream.open full 0 1) = .error (.io .other) t ∧
      t.pos = 2 ∧ t.sink.bytes <+: 170 :: letters.encoding ∧ t.abandon.bytes = [170, 10] := by
  intro sink full
  have hfits : sink.Fits := by
    intro limit hlimit
    cases hlimit
    decide
  have hfull : full.Fits := by
    intro limit hlimit
    cases hlimit
    decide
  obtain ⟨t, ht⟩ : ∃ t,
      OutputCall.runAll [.byte 1, .bytes [2, 3, 4, 5]] (OutputStream.open sink 0 1) = .ok () t :=
    ⟨_, rfl⟩
  obtain ⟨hpos, hkeeps⟩ := (keeps_order hfits 0 1 [.byte 1, .bytes [2, 3, 4, 5]]).1 t ht
  obtain ⟨u, hu, hat⟩ : ∃ u,
      OutputCall.runAll [letters] (OutputStream.open full 0 1) = .error (.io .other) u ∧
        u.pos = 2 := by
    rw [OutputCall.runAll, run_letters]
    exact ⟨_, rfl, by decide⟩
  obtain ⟨done, call, rest, front, hcalls, -, -, -, -, htaken, habandon⟩ :=
    (keeps_order hfull 0 1 [letters]).2 _ u hu
  obtain ⟨rfl, rfl⟩ := split_letters hcalls
  refine ⟨hfits, hfull, ⟨t, ht, hpos, hkeeps.taken, hkeeps.abandoned⟩, u, hu, hat, htaken, ?_⟩
  rw [habandon]
  decide +kernel

/-- A position counts more than complete calls, and less than the sink may hold: the length of the
letters counts although their text is refused, and bytes that were in the sink before do not. -/
theorem position_between :
    (∃ t,
      OutputCall.runAll [letters] (OutputStream.open { limit := some 1 } 0 0) =
        .error (.io .other) t ∧
      ∀ done call rest, [letters] = done ++ call :: rest →
        t.pos ≠ (OutputCall.encodings done).length) ∧
    ∃ w, Writer.open ⟨"P", [], "x", []⟩ (.ofBytes [170, 170, 170, 170, 170]) 0 = .ok w ∧
      w.pos = 11 ∧ w.out.written.length = 16 := by
  constructor
  · obtain ⟨t, ht, hat⟩ : ∃ t,
        OutputCall.runAll [letters] (OutputStream.open { limit := some 1 } 0 0) =
          .error (.io .other) t ∧ t.pos = 1 := by
      rw [OutputCall.runAll, run_letters]
      exact ⟨_, rfl, by decide⟩
    refine ⟨t, ht, fun done call rest hcalls => ?_⟩
    obtain ⟨rfl, rfl⟩ := split_letters hcalls
    rw [hat]
    exact Nat.one_ne_zero
  · have hlimit : (Sink.ofBytes [170, 170, 170, 170, 170]).limit = none := rfl
    obtain ⟨w, hw, hopened⟩ := Writer.open_ok ⟨"P", [], "x", []⟩ hlimit 0
    refine ⟨w, hw, ?_, ?_⟩
    · rw [hopened.pos]
      decide +kernel
    · rw [hopened.written]
      decide +kernel

end OutputStream

end TypedStream
