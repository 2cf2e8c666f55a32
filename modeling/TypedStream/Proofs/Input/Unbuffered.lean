import TypedStream.Header
import TypedStream.Proofs.Codec.Raises
import TypedStream.Proofs.Input.Alike
import TypedStream.Proofs.Input.Seeking

/-!
# Buffering does not show

A caller asks an input stream for pieces of data, and may move it in between. Over a device that
can be repositioned the stream answers every call as a plain cursor over the device's content
would (`InputStream.outcomes_eq_cursor`), up to the first piece that cannot be decoded: neither the
buffer nor the size of the read calls shows, and a device that fails makes the call fail.

A stream beyond the lower half of the positions is the exception, since the distance back is a
signed 64-bit word (`InputStream.seek_refused`).
-/

namespace TypedStream

/-- The cursor over the content of a device, which fails where the device fails. -/
def Source.cursor (source : Source) : ByteCursor :=
  { content := source.content.toList, pos := source.pos, fault := source.fault,
    endSeeks := source.endSeeks, endFault := source.endFault }

-- ---------------------------------------------------------------------------
-- Calls
-- ---------------------------------------------------------------------------

inductive InputAnswer where
  | byte (b : UInt8)
  | bytes (bytes : Bytes)
  | number (n : Nat)
  | signed (v : Int)
  | value (value : Value)
  | values (values : List Value)
  | header (header : Header)
  /-- The input ends here. -/
  | ended
  | position (pos : Nat)

/-- What can be decoded at the position of an input. -/
inductive Piece where
  | byte
  | bytes (count : Nat)
  | varint
  | zigzag
  | fixed (width : Nat)
  | unionIndex (alternatives : Nat)
  | value (type : Ty)
  | values (type : Ty) (count : Nat)
  | header

def Piece.decoder : Piece → Decoder InputAnswer
  | .byte => .byte <$> Decoder.byte
  | .bytes count => .bytes <$> Decoder.bytes count
  | .varint => .number <$> Decoder.varint
  | .zigzag => .signed <$> Decoder.zigzag
  | .fixed width => .number <$> Decoder.fixed width
  | .unionIndex alternatives => .number <$> Codec.readIndex alternatives
  | .value type => .value <$> type.codec.read
  | .values type count => .values <$> type.codec.readRun count
  | .header => .header <$> Header.read

inductive InputCall where
  | decode (piece : Piece)
  /-- A varint, unless the input ends here. -/
  | tryVarint
  | verifyFinished
  | seek (offset : Int) (fits : IntKind.i64.Holds offset)

namespace InputCall

variable {σ : Type} [SeekableInput σ]

def run : InputCall → EStateM Error σ InputAnswer
  | .decode piece => piece.decoder.exec
  | .tryVarint => (fun n => n.elim .ended .number) <$> TypedStream.tryVarint
  | .verifyFinished => (fun _ => .ended) <$> TypedStream.verifyFinished
  | .seek offset _ => .position <$> SeekableInput.seek offset

def decodes : InputCall → Bool
  | .decode _ | .tryVarint => true
  | .verifyFinished | .seek .. => false

def seeks : InputCall → Bool
  | .seek .. => true
  | _ => false

/-- The call moves to a position that it gives from the start of the input. -/
def absolute : InputCall → Bool
  | .seek offset _ => decide (0 ≤ offset)
  | _ => false

/-- No call is made after a piece could not be decoded. -/
def stops (call : InputCall) (error : Error) : Bool := call.decodes && error.fatal

/-- What successive calls come to, each with the position behind it. -/
def outcomes : List InputCall → σ → List (Except Error InputAnswer × Nat)
  | [], _ => []
  | call :: calls, s =>
    match call.run s with
    | .ok answer s => (.ok answer, ByteInput.pos s) :: outcomes calls s
    | .error error s =>
      (.error error, ByteInput.pos s) :: if call.stops error then [] else outcomes calls s

/-- The input behind the calls, if they get so far. -/
def after : List InputCall → σ → Option σ
  | [], s => some s
  | call :: calls, s =>
    match call.run s with
    | .ok _ s => after calls s
    | .error error s => if call.stops error then none else after calls s

end InputCall

theorem Header.sober_read : Header.read.Sober := by
  refine (Decoder.sober_bytes _).bind fun found => ?_
  split
  · exact Decoder.sober_malformed _
  refine (Decoder.sober_fixed 4).bind fun version => ?_
  split
  · exact Decoder.sober_malformed _
  refine Decoder.sober_varint.bind fun length => ?_
  split
  · exact Decoder.sober_malformed _
  refine (Decoder.sober_bytes length).bind fun text => ?_
  split
  · exact Decoder.sober_pure _
  · exact Decoder.sober_malformed _

theorem Piece.sober_decoder (piece : Piece) : piece.decoder.Sober := by
  cases piece with
  | byte => exact Decoder.sober_byte.map _
  | bytes count => exact (Decoder.sober_bytes count).map _
  | varint => exact Decoder.sober_varint.map _
  | zigzag => exact (Decoder.sober_varint.map _).map _
  | fixed width => exact (Decoder.sober_fixed width).map _
  | unionIndex alternatives => exact (Codec.sober_readIndex alternatives).map _
  | value type => exact type.sober_codec.read.map _
  | values type count => exact (type.sober_codec.readRun count).map _
  | header => exact Header.sober_read.map _

theorem InputCall.fatal_of_error {call : InputCall} (hdecodes : call.decodes = true)
    {s t : InputStream} {error : Error} (h : call.run s = .error error t) : error.fatal = true := by
  cases call with
  | decode piece => exact piece.sober_decoder.exec_error h
  | tryVarint =>
    simp only [run, Functor.map, EStateM.map] at h
    split at h
    · cases h
    · next htry =>
      cases h
      exact tryVarint_error htry
  | verifyFinished | seek => cases hdecodes

-- ---------------------------------------------------------------------------
-- A stream and a cursor
-- ---------------------------------------------------------------------------

section
variable {low : Prop} {fault : Option (Nat × DeviceFault)} {s t : InputStream} {c : ByteCursor}
  {count : Nat}

/-- The stream and the cursor stand at one place of one content, of a device that has this fault.
Where absolute seeks are to come (`low`), the place is one that a signed 64-bit word can measure. -/
structure Mirrors (low : Prop) (fault : Option (Nat × DeviceFault)) (s : InputStream)
    (c : ByteCursor) : Prop where
  intact : s.Intact
  cursor_eq : s.cursor = c
  fault_eq : c.fault = fault
  pos_eq : s.pos = s.place
  pipe : s.source.pipe = false
  short : s.source.content.size * 2 < sizeLimit
  low_place : low → s.place * 2 ≤ sizeLimit

def SamePos (s : InputStream) (c : ByteCursor) : Prop := s.pos = c.pos

namespace Mirrors

theorem same_pos (h : Mirrors low fault s c) : SamePos s c := by
  show s.pos = c.pos
  rw [← h.cursor_eq, h.pos_eq]
  rfl

theorem ahead_eq (h : Mirrors low fault s c) : s.ahead = c.rest := by
  rw [← h.cursor_eq]
  rfl

theorem advance (h : Mirrors low fault s c) (hadv : InputStream.Advances s t count)
    (hwithin : count = 0 ∨ s.place + count ≤ s.cursor.bound) :
    Mirrors low fault { t with pos := s.pos + count } { c with pos := c.pos + count } := by
  obtain ⟨position, hsource⟩ := hadv.source
  refine ⟨hadv.intact.at _, ?_, h.fault_eq, ?_, ?_, ?_, fun hlow => ?_⟩
  · rw [← h.cursor_eq]
    exact hadv.cursor
  · show s.pos + count = t.place
    rw [hadv.place, h.pos_eq]
  · show t.source.pipe = false
    rw [hsource]
    exact h.pipe
  · show t.source.content.size * 2 < sizeLimit
    rw [hsource]
    exact h.short
  · have hplace := h.low_place hlow
    have hbound := s.bound_le_size
    have hshort := h.short
    show t.place * 2 ≤ sizeLimit
    rw [hadv.place]
    omega

/-- Looking whether the input ends here moves nothing. -/
theorem stay (h : Mirrors low fault s c) (hadv : InputStream.Advances s t 0) :
    Mirrors low fault t c := by
  have hmoved := h.advance hadv (.inl rfl)
  rw [Nat.add_zero, ← hadv.pos] at hmoved
  exact hmoved

theorem take (h : Mirrors low fault s c) (count : Nat) :
    Related (Mirrors low fault) SamePos (InputStream.take count s)
      (ByteCursor.take count c) := by
  have hplace : s.place = c.pos := h.pos_eq.symm.trans h.same_pos
  rw [ByteCursor.take_eq]
  split
  · next hcount =>
    have hwithin : count = 0 ∨ s.place + count ≤ s.cursor.bound := by
      rw [h.cursor_eq, hplace]
      exact hcount
    obtain ⟨_, ht, u, hadv, rfl⟩ := h.intact.take_ok hwithin
    rw [ht, h.ahead_eq]
    exact .of_ok (h.advance hadv hwithin) _
  · next hcount =>
    obtain ⟨h0, hshort⟩ := not_or.mp hcount
    obtain ⟨t, ht, hadv⟩ := h.intact.take_short h0
      (by rw [h.cursor_eq, hplace]; exact Nat.not_le.mp hshort)
    rw [ht, h.cursor_eq]
    have hsame : SamePos t c := hadv.pos.trans h.same_pos
    exact .of_error hsame _

theorem atEnd (h : Mirrors low fault s c) :
    Related (Mirrors low fault) (Mirrors low fault) (InputStream.atEnd s) (ByteCursor.atEnd c) := by
  cases hf : c.faultHere? with
  | some fault =>
    obtain ⟨t, ht, hadv⟩ := h.intact.atEnd_fault (by rw [h.cursor_eq]; exact hf)
    simp only [ByteCursor.atEnd, hf, ht]
    exact .of_error (h.stay hadv) _
  | none =>
    obtain ⟨t, ht, hadv⟩ := h.intact.atEnd_ok (by rw [h.cursor_eq]; exact hf)
    have hended : s.ahead.isEmpty = decide (c.content.length ≤ c.pos) := by
      rw [h.ahead_eq, ByteCursor.rest, Bool.eq_iff_iff]
      simp
    simp only [ByteCursor.atEnd, hf, ht, hended]
    exact .of_ok (h.stay hadv) _

theorem congruent : Congruent (Mirrors low fault) SamePos where
  take count _ _ h := h.take count
  atEnd _ _ h := h.atEnd.weaken same_pos
  weaken := same_pos

theorem verifyFinished (h : Mirrors low fault s c) :
    Related (Mirrors low fault) (Mirrors low fault) (TypedStream.verifyFinished s)
      (TypedStream.verifyFinished c) := by
  refine Relates.bind (fun _ _ => atEnd) (fun ended => ?_) s c h
  cases ended with
  | true => exact .pure ()
  | false => exact fun _ _ h => .of_error h _

-- ---------------------------------------------------------------------------
-- Seeks
-- ---------------------------------------------------------------------------

theorem counted (h : Mirrors low fault s c) (endSeeks : Option Nat) :
    Mirrors low fault { s with source := { s.source with endSeeks } } { c with endSeeks } where
  intact := ⟨⟨⟨rfl, h.intact.chunk⟩, h.intact.capacity_pos, h.intact.sound.used_le,
    h.intact.sound.size_le, h.intact.sound.buffer_eq⟩, h.intact.clear⟩
  cursor_eq := by rw [← h.cursor_eq]; rfl
  fault_eq := h.fault_eq
  pos_eq := h.pos_eq
  pipe := h.pipe
  short := h.short
  low_place := h.low_place

/-- The stream has let go of its buffer, and stands where its source does. -/
theorem emptied (h : Mirrors low fault s c) {target : Nat} (htarget : target * 2 < sizeLimit) :
    Mirrors low fault { s with
      source := { s.source with pos := target }, buffer := #[], used := 0, pos := target }
      { c with pos := target } where
  intact := (h.intact.emptied target).at target
  cursor_eq := by rw [← h.cursor_eq]; rfl
  fault_eq := h.fault_eq
  pos_eq := rfl
  pipe := h.pipe
  short := h.short
  low_place _ := Nat.le_of_lt htarget

theorem seek_end (h : Mirrors low fault s c) {offset : Int} (hneg : offset < 0) :
    Related (Mirrors low fault) (Mirrors low fault) (InputStream.seek offset s)
      (ByteCursor.seek offset c) := by
  have hends : c.endSeeks = s.source.endSeeks := by
    rw [← h.cursor_eq]
    rfl
  have hfails : Error.ofFault c.endFault = Error.ofFault s.source.endFault := by
    rw [← h.cursor_eq]
    rfl
  have hsize : (c.content.length : Int) = s.source.content.size := by
    rw [← h.cursor_eq]
    simp [InputStream.cursor]
  have hshort := h.short
  rw [InputStream.seek, if_pos hneg, Source.seekEnd_eq h.pipe (by omega), c.seek_end hneg, hends,
    hfails, hsize]
  have hcounted := h.counted (s.source.endSeeks.map (· - 1))
  by_cases hcount : s.source.endSeeks = some 0
  · rw [if_pos hcount, if_pos hcount]
    exact .of_error (h.counted none) _
  rw [if_neg hcount, if_neg hcount]
  by_cases hbefore : (s.source.content.size : Int) + offset < 0
  · rw [if_pos hbefore, if_pos hbefore]
    exact .of_error hcounted _
  · rw [if_neg hbefore, if_neg hbefore]
    have htarget : ((s.source.content.size : Int) + offset).toNat * 2 < sizeLimit := by omega
    exact .of_ok (hcounted.emptied htarget) _

theorem seek_absolute (h : Mirrors low fault s c) {offset : Int} (hnonneg : 0 ≤ offset)
    (hfits : offset * 2 < sizeLimit) (hlow : low) :
    Related (Mirrors low fault) (Mirrors low fault) (InputStream.seek offset s)
      (ByteCursor.seek offset c) := by
  obtain ⟨place, rfl⟩ := Int.eq_ofNat_of_zero_le hnonneg
  have hplace : place * 2 < sizeLimit := by omega
  obtain ⟨t, ht, hintact, hpos, hat, position, hsource⟩ :=
    h.intact.seek_ok h.pipe h.pos_eq (h.low_place hlow) hplace
  rw [ht, ByteCursor.seek, if_neg (by omega), Int.toNat_natCast]
  refine .of_ok ⟨hintact, ?_, h.fault_eq, hpos.trans hat.symm, ?_, ?_, fun _ => ?_⟩ place
  · rw [← h.cursor_eq, InputStream.cursor, hat, hsource]
    rfl
  · rw [hsource]
    exact h.pipe
  · rw [hsource]
    exact h.short
  · rw [hat]
    exact Nat.le_of_lt hplace

theorem seek (h : Mirrors low fault s c) {offset : Int} (hfits : IntKind.i64.Holds offset)
    (hlow : 0 ≤ offset → low) :
    Related (Mirrors low fault) (Mirrors low fault) (InputStream.seek offset s)
      (ByteCursor.seek offset c) := by
  by_cases hneg : offset < 0
  · exact h.seek_end hneg
  · have hhigh : offset ≤ 9223372036854775807 := hfits.2
    exact h.seek_absolute (Int.not_lt.mp hneg) (by simp only [sizeLimit]; omega)
      (hlow (Int.not_lt.mp hneg))

-- ---------------------------------------------------------------------------
-- Calls
-- ---------------------------------------------------------------------------

/-- A call comes to the same on both, and a failure of one that decodes nothing leaves both at one
place. -/
theorem run (h : Mirrors low fault s c) (call : InputCall) (hlow : call.absolute = true → low) :
    Related (Mirrors low fault)
      (fun t d => SamePos t d ∧ (call.decodes = false → Mirrors low fault t d))
      (call.run s) (call.run c) := by
  have hdecode : ∀ {x : EStateM.Result Error InputStream InputAnswer} {y}, call.decodes = true →
      Related (Mirrors low fault) SamePos x y → Related (Mirrors low fault)
        (fun t d => SamePos t d ∧ (call.decodes = false → Mirrors low fault t d)) x y :=
    fun hdecodes hrel => hrel.weaken fun hsame => ⟨hsame, fun hno => by simp [hdecodes] at hno⟩
  have hother : ∀ {x : EStateM.Result Error InputStream InputAnswer} {y},
      Related (Mirrors low fault) (Mirrors low fault) x y → Related (Mirrors low fault)
        (fun t d => SamePos t d ∧ (call.decodes = false → Mirrors low fault t d)) x y :=
    fun hrel => hrel.weaken fun hmirrors => ⟨hmirrors.same_pos, fun _ => hmirrors⟩
  cases call with
  | decode piece => exact hdecode rfl (congruent.exec piece.decoder s c h)
  | tryVarint => exact hdecode rfl (congruent.tryVarint.map _ s c h)
  | verifyFinished => exact hother (Relates.map (fun _ _ => verifyFinished) _ s c h)
  | seek offset fits =>
    refine hother (Relates.map (R := Mirrors low fault) (fun s c h => ?_) _ s c h)
    exact h.seek fits fun hnonneg => hlow (decide_eq_true hnonneg)

theorem outcomes_eq (h : Mirrors low fault s c) {calls : List InputCall}
    (hlow : ∀ call ∈ calls, call.absolute = true → low) :
    InputCall.outcomes calls s = InputCall.outcomes calls c := by
  induction calls generalizing s c with
  | nil => rfl
  | cons call calls ih =>
    have hrest : ∀ call ∈ calls, call.absolute = true → low :=
      fun other hother => hlow other (List.mem_cons_of_mem _ hother)
    rcases h.run call (hlow call (List.mem_cons_self ..)) with
      ⟨answer, t, d, hs, hc, hrel⟩ | ⟨error, t, d, hs, hc, hsame, hrel⟩
    · have hpos : ByteInput.pos t = ByteInput.pos d := hrel.same_pos
      simp only [InputCall.outcomes, hs, hc, hpos, ih hrel hrest]
    · have hpos : ByteInput.pos t = ByteInput.pos d := hsame
      simp only [InputCall.outcomes, hs, hc, hpos]
      cases hdecodes : call.decodes with
      | true => simp [InputCall.stops, hdecodes, InputCall.fatal_of_error hdecodes hs]
      | false => rw [ih (hrel hdecodes) hrest]

theorem after (h : Mirrors low fault s c) {calls : List InputCall}
    (hlow : ∀ call ∈ calls, call.absolute = true → low)
    (hafter : InputCall.after calls s = some t) : ∃ d, Mirrors low fault t d := by
  induction calls generalizing s c with
  | nil =>
    cases hafter
    exact ⟨c, h⟩
  | cons call calls ih =>
    have hrest : ∀ call ∈ calls, call.absolute = true → low :=
      fun other hother => hlow other (List.mem_cons_of_mem _ hother)
    rcases h.run call (hlow call (List.mem_cons_self ..)) with
      ⟨answer, u, d, hs, hc, hrel⟩ | ⟨error, u, d, hs, hc, hsame, hrel⟩
    · simp only [InputCall.after, hs] at hafter
      exact ih hrel hrest hafter
    · simp only [InputCall.after, hs] at hafter
      split at hafter
      · cases hafter
      · next hgoes =>
        refine ih (hrel ?_) hrest hafter
        by_contra hdecodes
        have hdecodes : call.decodes = true := by simpa using hdecodes
        exact hgoes (by simp [InputCall.stops, hdecodes, InputCall.fatal_of_error hdecodes hs])

end Mirrors

end

theorem mirrors_open {source : Source} {low : Prop} (hpipe : source.pipe = false)
    (hchunk : source.chunk ≠ some 0) (hshort : source.content.size * 2 < sizeLimit)
    (hlow : low → source.pos * 2 ≤ sizeLimit) (bufferSize : Nat) :
    Mirrors low source.fault (InputStream.open source bufferSize source.pos) source.cursor where
  intact := by
    have hsteady : Source.Reliable { source with fault := none } := ⟨rfl, hchunk⟩
    exact ⟨InputStream.sound_open hsteady bufferSize source.pos,
      fun hsize => absurd hsize (Nat.lt_irrefl 0)⟩
  cursor_eq := rfl
  fault_eq := rfl
  pos_eq := rfl
  pipe := hpipe
  short := hshort
  low_place := hlow

-- ---------------------------------------------------------------------------
-- Devices that fail
-- ---------------------------------------------------------------------------

theorem Decoder.exec_map {σ : Type} [ByteInput σ] (f : α → β) (decoder : Decoder α) (s : σ) :
    (f <$> decoder).exec s = (f <$> decoder.exec : EStateM Error σ β) s := by
  induction decoder generalizing s with
  | done value => rfl
  | fail error => rfl
  | need count next ih =>
    have hneed : f <$> need count next = need count fun bytes => f <$> next bytes := rfl
    rw [hneed]
    simp only [Functor.map, EStateM.map, exec]
    split
    · next bytes t htake => exact ih bytes t
    · rfl

section
variable {σ : Type} [SeekableInput σ]

theorem Piece.not_ended {piece : Piece} {s t : σ} {answer : InputAnswer}
    (h : piece.decoder.exec s = .ok answer t) : answer ≠ .ended := by
  rintro rfl
  cases piece
  all_goals
    rw [Piece.decoder, Decoder.exec_map] at h
    simp only [Functor.map, EStateM.map] at h
    split at h <;> cases h

end

section
variable {call : InputCall} {c d : ByteCursor} {answer : InputAnswer}

/-- What a call hands out comes from in front of the bound, and an end that it finds is not a
fault. -/
theorem InputCall.within (hseeks : call.seeks = false) (h : call.run c = .ok answer d) :
    d.pos ≤ max c.pos c.bound ∧ (answer = .ended → c.faultHere? = none) := by
  cases call with
  | decode piece =>
    exact ⟨(ByteCursor.exec_within h).1, fun hended => absurd hended (Piece.not_ended h)⟩
  | tryVarint =>
    obtain ⟨n, htry, -⟩ := map_inv h
    obtain ⟨ended, e, hend, hrest⟩ := bind_ok.mp htry
    obtain ⟨rfl, hclear, -⟩ := ByteCursor.atEnd_ok hend
    refine ⟨?_, fun _ => hclear⟩
    cases ended with
    | true =>
      obtain ⟨-, rfl⟩ := pure_ok.mp hrest
      exact Nat.le_max_left _ _
    | false =>
      obtain ⟨value, f, hvarint, hdone⟩ := bind_ok.mp hrest
      obtain ⟨-, rfl⟩ := pure_ok.mp hdone
      exact (ByteCursor.exec_within hvarint).1
  | verifyFinished =>
    obtain ⟨_, hverify, -⟩ := map_inv h
    obtain ⟨ended, e, hend, hrest⟩ := bind_ok.mp hverify
    obtain ⟨rfl, hclear, -⟩ := ByteCursor.atEnd_ok hend
    refine ⟨?_, fun _ => hclear⟩
    cases ended with
    | true =>
      obtain ⟨-, rfl⟩ := pure_ok.mp hrest
      exact Nat.le_max_left _ _
    | false => cases hrest
  | seek => cases hseeks

end

namespace InputStream

/-- A stream with a buffer over a device answers as a cursor over the device's content does, so
neither the size of the buffer nor that of the read calls shows; and no call hands out a byte, or
reports the end, where the device fails. -/
theorem outcomes_eq_cursor {source : Source} (hpipe : source.pipe = false)
    (hchunk : source.chunk ≠ some 0) (hshort : source.content.size * 2 < sizeLimit)
    (bufferSize : Nat) (calls : List InputCall)
    (hlow : (∃ call ∈ calls, call.absolute = true) → source.pos * 2 ≤ sizeLimit) :
    InputCall.outcomes calls (InputStream.open source bufferSize source.pos) =
        InputCall.outcomes calls source.cursor ∧
      (∀ (otherSize : Nat) (chunk : Option Nat), chunk ≠ some 0 →
        InputCall.outcomes calls (InputStream.open { source with chunk } otherSize source.pos) =
          InputCall.outcomes calls (InputStream.open source bufferSize source.pos)) ∧
      ∀ {limit fault}, source.fault = some (limit, fault) → ∀ {s : InputStream},
        InputCall.after calls (InputStream.open source bufferSize source.pos) = some s →
          ∀ {call : InputCall} {answer : InputAnswer} {t : InputStream}, call.seeks = false →
            call.run s = .ok answer t →
              t.pos ≤ max s.pos limit ∧ (answer = .ended → s.pos < limit) := by
  have hcalls : ∀ call ∈ calls, call.absolute = true → ∃ call ∈ calls, call.absolute = true :=
    fun call hcall habsolute => ⟨call, hcall, habsolute⟩
  have hopen := mirrors_open hpipe hchunk hshort hlow bufferSize
  refine ⟨hopen.outcomes_eq hcalls, fun otherSize chunk hother => ?_, ?_⟩
  · have hopen' := @mirrors_open { source with chunk } _ hpipe hother hshort hlow otherSize
    exact (hopen'.outcomes_eq hcalls).trans (hopen.outcomes_eq hcalls).symm
  · intro limit fault hfault s hafter call answer t hseeks hrun
    obtain ⟨c, hmirrors⟩ := hopen.after hcalls hafter
    have habsolute : call.absolute = true → ∃ call ∈ calls, call.absolute = true := by
      cases call with
      | seek => cases hseeks
      | _ => exact fun hno => by cases hno
    rcases hmirrors.run call habsolute with ⟨_, t', d, hs, hc, hrel⟩ | ⟨_, _, _, hs, -⟩
    · cases hrun.symm.trans hs
      have hstands := hmirrors.fault_eq.trans hfault
      obtain ⟨hwithin, hclear⟩ := InputCall.within hseeks hc
      have hbound := ByteCursor.bound_le_fault hstands
      have hs_pos : s.pos = c.pos := hmirrors.same_pos
      have ht_pos : t.pos = d.pos := hrel.same_pos
      rw [hs_pos, ht_pos]
      exact ⟨by omega, fun hended => ByteCursor.lt_of_clear (hclear hended) hstands⟩
    · cases hrun.symm.trans hs

theorem outcomes_eq_cursor_failing :
    let source : Source :=
      { content := #[1, 2, 3, 4, 5], pos := 1, chunk := some 2, fault := some (4, .other) }
    InputCall.outcomes
        [.decode (.bytes 2), .seek (-5) (by decide), .verifyFinished, .seek 4 (by decide),
          .tryVarint]
        (InputStream.open source 3 source.pos) =
      [(.ok (.bytes [2, 3]), 3), (.ok (.position 0), 0), (.error (.format .notFinished), 0),
        (.ok (.position 4), 4), (.error (.io .other), 4)] := by
  intro source
  obtain ⟨hcursor, -⟩ := @outcomes_eq_cursor source rfl (by decide) (by decide) 3
    [.decode (.bytes 2), .seek (-5) (by decide), .verifyFinished, .seek 4 (by decide), .tryVarint]
    (fun _ => by decide)
  rw [hcursor]
  simp only [InputCall.outcomes, InputCall.run, Piece.decoder, Decoder.exec_map, Decoder.bytes,
    Decoder.exec]
  rfl

-- ---------------------------------------------------------------------------
-- Streams beyond the lower half of the positions
-- ---------------------------------------------------------------------------

/-- A distance of more than half the positions turns into a way forward, beyond the last one. -/
theorem seek_refused {source : Source} (hpipe : source.pipe = false)
    (hword : source.pos < sizeLimit) {place : Nat}
    (hfar : sizeLimit < (source.pos - place) * 2) (bufferSize : Nat) :
    seek place (InputStream.open source bufferSize source.pos) =
      .error (.io .invalidInput) (InputStream.open source bufferSize source.pos) := by
  have hdelta : Int.bmod ((place : Int) - source.pos) sizeLimit =
      (place : Int) - source.pos + sizeLimit := by
    have hwraps : Int.bmod ((place : Int) - source.pos + sizeLimit) sizeLimit =
        (place : Int) - source.pos + sizeLimit := bmod_small (by omega) (by omega)
    rwa [Int.add_bmod_right] at hwraps
  have hhigh : (sizeLimit : Int) ≤ source.pos + (place - source.pos + sizeLimit) := by omega
  have hto : source.seekBy (place - source.pos + sizeLimit) = .error .invalidInput := by
    simp only [Source.seekBy, Source.seekTo, hpipe, if_pos (Or.inr hhigh)]
    rfl
  have houtside : ¬((0 : Int) ≤ place - source.pos + sizeLimit ∧
      (place : Int) - source.pos + sizeLimit ≤ 0) := by omega
  rw [seek, if_neg (by omega)]
  simp only [InputStream.open, buffered, hdelta, List.size_toArray, List.length_nil, Nat.sub_zero,
    Int.ofNat_zero, Int.zero_add, Int.sub_zero]
  rw [if_neg houtside, hto]
  rfl

theorem outcomes_far :
    let source : Source := { content := #[1, 2, 3, 4, 5], pos := 9223372036854775809 }
    InputCall.outcomes [.seek 0 (by decide)] (InputStream.open source 64 source.pos) ≠
      InputCall.outcomes [.seek 0 (by decide)] source.cursor := by
  intro source h
  have hstream : InputCall.outcomes [.seek 0 (by decide)]
      (InputStream.open source 64 source.pos) =
        [(.error (.io .invalidInput), 9223372036854775809)] := by
    have hrefused : SeekableInput.seek 0 (InputStream.open source 64 source.pos) = .error _ _ :=
      @seek_refused source rfl (by decide) 0 (by decide) 64
    simp only [InputCall.outcomes, InputCall.run, Functor.map, EStateM.map, hrefused]
    rfl
  have hcursor : InputCall.outcomes [.seek 0 (by decide)] source.cursor =
      [(.ok (.position 0), 0)] := rfl
  rw [hstream, hcursor] at h
  cases h

end InputStream

end TypedStream
