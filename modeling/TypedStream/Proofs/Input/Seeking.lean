import TypedStream.Proofs.Input.Buffered

/-!
# Buffered streams that are repositioned

Over a device that can be repositioned, and whose content a signed 64-bit word can measure, a
buffered stream goes to any place that such a word can measure, also behind the end of the content
(`InputStream.Placed.seek_ok`). Whether the place is still in the buffer does not show.
-/

namespace TypedStream

structure Source.Seekable (source : Source) : Prop where
  reliable : source.Reliable
  pipe : source.pipe = false
  endSeeks : source.endSeeks = none

theorem Source.Seekable.moved {source : Source} (h : source.Seekable) (pos : Nat) :
    Seekable { source with pos } := ⟨h.reliable.moved pos, h.pipe, h.endSeeks⟩

theorem Source.seekTo_ok {source : Source} (hpipe : source.pipe = false) {target : Nat}
    (htarget : target < sizeLimit) :
    source.seekTo target = .ok { source with pos := target } := by
  have hword : ¬((target : Int) < 0 ∨ (sizeLimit : Int) ≤ target) := by omega
  simp only [Source.seekTo, hpipe, if_neg hword]
  rfl

/-- A seek to a place in front of the end goes there, unless the device is out of such seeks or
the place lies in front of the content. -/
theorem Source.seekEnd_eq {source : Source} (hpipe : source.pipe = false) {delta : Int}
    (htarget : (source.content.size : Int) + delta < sizeLimit) :
    source.seekEnd delta =
      if source.endSeeks = some 0 then
        (.error source.endFault, { source with endSeeks := none })
      else if (source.content.size : Int) + delta < 0 then
        (.error .invalidInput, { source with endSeeks := source.endSeeks.map (· - 1) })
      else
        (.ok (), { source with
          pos := ((source.content.size : Int) + delta).toNat
          endSeeks := source.endSeeks.map (· - 1) }) := by
  obtain ⟨content, pos, chunk, fault, pipe, endSeeks, endFault⟩ := source
  dsimp only at hpipe htarget
  subst hpipe
  have hto : ∀ count : Option Nat, seekTo ⟨content, pos, chunk, fault, false, count, endFault⟩
      (content.size + delta) =
        if (content.size : Int) + delta < 0 then .error .invalidInput
        else .ok ⟨content, (content.size + delta).toNat, chunk, fault, false, count, endFault⟩ := by
    intro count
    have hword : ((content.size : Int) + delta < 0 ∨ (sizeLimit : Int) ≤ content.size + delta) ↔
        (content.size : Int) + delta < 0 := or_iff_left (Int.not_le.mpr htarget)
    simp only [seekTo, Bool.false_eq_true, if_false, hword]
  rcases endSeeks with _ | _ | count
  all_goals
    simp only [seekEnd, Bool.false_eq_true, if_false, hto]
    by_cases hbefore : (content.size : Int) + delta < 0 <;> simp [hbefore]

theorem Source.Seekable.seekEnd_ok {source : Source} (h : source.Seekable) {delta : Int}
    {target : Nat} (hdelta : (source.content.size : Int) + delta = target)
    (htarget : target < sizeLimit) :
    source.seekEnd delta = (.ok (), { source with pos := target }) := by
  rw [seekEnd_eq h.pipe (by omega), h.endSeeks, if_neg (by simp), if_neg (by omega), hdelta,
    Int.toNat_natCast, Option.map_none, ← h.endSeeks]

theorem Source.Seekable.seekEnd_before {source : Source} (h : source.Seekable) {delta : Int}
    (hdelta : (source.content.size : Int) + delta < 0) :
    source.seekEnd delta = (.error .invalidInput, source) := by
  rw [seekEnd_eq h.pipe (by omega), h.endSeeks, if_neg (by simp), if_pos hdelta, Option.map_none,
    ← h.endSeeks]

theorem bmod_small {n : Int} (hlow : -(sizeLimit : Int) ≤ n * 2) (hhigh : n * 2 < sizeLimit) :
    Int.bmod n sizeLimit = n := Int.bmod_eq_of_le_mul_two hlow hhigh

theorem signedOffset_small {offset : Nat} (h : offset * 2 < sizeLimit) :
    signedOffset offset = offset := by
  have hint : (offset : Int) * 2 < sizeLimit := by exact_mod_cast h
  exact bmod_small (by omega) hint

namespace InputStream

/-- A seek to a place goes there, whether the buffer holds the place or not. -/
theorem Intact.seek_ok {s : InputStream} (h : s.Intact) (hpipe : s.source.pipe = false)
    (hpos : s.pos = s.place) (hlow : s.place * 2 ≤ sizeLimit) {offset : Nat}
    (ho : offset * 2 < sizeLimit) :
    ∃ t, seek offset s = .ok offset t ∧ t.Intact ∧ t.pos = offset ∧ t.place = offset ∧
      ∃ pos, t.source = { s.source with pos } := by
  have hplace := h.place_add_buffered
  have hused : s.used ≤ s.buffer.size := h.sound.used_le
  have hsize : s.buffer.size ≤ s.source.pos := h.sound.size_le
  rw [buffered] at hplace
  have hdelta : Int.bmod ((offset : Int) - s.pos) sizeLimit = (offset : Int) - s.place := by
    rw [hpos]
    exact bmod_small (by omega) (by omega)
  rw [seek, if_neg (by omega)]
  dsimp only
  rw [hdelta]
  split
  · next hin =>
    have hheld : ((s.used : Int) + (offset - s.place)).toNat ≤ s.buffer.size := by omega
    refine ⟨{ s with used := ((s.used : Int) + (offset - s.place)).toNat, pos := offset }, ?_,
      ⟨⟨h.sound.reliable, h.sound.capacity_pos, hheld, hsize, h.sound.buffer_eq⟩, h.clear⟩, rfl,
      ?_, s.source.pos, rfl⟩
    · simp only [Int.toNat_natCast]
    · show s.source.pos - (s.buffer.size - ((s.used : Int) + (offset - s.place)).toNat) = offset
      omega
  · have htarget : (s.source.pos : Int) + (offset - s.place - s.buffered) = offset := by
      rw [buffered]
      omega
    rw [Source.seekBy, htarget, Source.seekTo_ok hpipe (by omega)]
    refine ⟨_, ?_, (h.emptied offset).at offset, rfl, rfl, offset, rfl⟩
    simp only [Int.toNat_natCast]

/-- The stream stands at place `p`, which may lie behind the end of its source's content, and
counts its positions so. -/
structure Placed (s : InputStream) (content : Array UInt8) (p : Nat) : Prop where
  sound : s.Sound
  content_eq : s.source.content = content
  seekable : s.source.Seekable
  short : content.size * 2 < sizeLimit
  low : p * 2 < sizeLimit
  pos_eq : s.pos = p
  place_eq : s.place = p

theorem placed_open {source : Source} (h : source.Seekable)
    (hshort : source.content.size * 2 < sizeLimit) (hlow : source.pos * 2 < sizeLimit)
    (bufferSize : Nat) :
    (InputStream.open source bufferSize source.pos).Placed source.content source.pos where
  sound := sound_open h.reliable _ _
  content_eq := rfl
  seekable := h
  short := hshort
  low := hlow
  pos_eq := rfl
  place_eq := rfl

/-- The stream stands at place `p` of its source's content, and counts its positions so. -/
structure Over (s : InputStream) (content : Array UInt8) (p : Nat) : Prop where
  sound : s.Sound
  content_eq : s.source.content = content
  seekable : s.source.Seekable
  short : content.size * 2 < sizeLimit
  pos_eq : s.pos = p
  place_eq : s.place = p
  le : p ≤ content.size

section
variable {s t : InputStream} {content : Array UInt8} {p : Nat}

theorem Over.placed (h : s.Over content p) : s.Placed content p where
  sound := h.sound
  content_eq := h.content_eq
  seekable := h.seekable
  short := h.short
  low := Nat.lt_of_le_of_lt (Nat.mul_le_mul_right 2 h.le) h.short
  pos_eq := h.pos_eq
  place_eq := h.place_eq

theorem Placed.over (h : s.Placed content p) (hle : p ≤ content.size) : s.Over content p where
  sound := h.sound
  content_eq := h.content_eq
  seekable := h.seekable
  short := h.short
  pos_eq := h.pos_eq
  place_eq := h.place_eq
  le := hle

theorem over_open {source : Source} (h : source.Seekable)
    (hshort : source.content.size * 2 < sizeLimit) (hle : source.pos ≤ source.content.size)
    (bufferSize : Nat) :
    (InputStream.open source bufferSize source.pos).Over source.content source.pos :=
  (placed_open h hshort (by omega) bufferSize).over hle

theorem Over.ahead_eq (h : s.Over content p) : s.ahead = content.toList.drop p := by
  rw [InputStream.ahead, h.content_eq, h.place_eq]

theorem Over.ahead (h : s.Over content p) : Lossless.Ahead s p (content.toList.drop p) :=
  ⟨h.sound, h.pos_eq, h.ahead_eq⟩

theorem Over.length_ahead (h : s.Over content p) : s.ahead.length = content.size - p := by
  rw [h.ahead_eq, List.length_drop, Array.length_toList]

theorem Over.advance (h : s.Over content p) {count : Nat} (hadv : Advances s t count)
    (hcount : p + count ≤ content.size) : Over { t with pos := p + count } content (p + count) where
  sound := (hadv.sound h.sound).at _
  content_eq := by
    obtain ⟨pos, hsource⟩ := hadv.source
    rw [← h.content_eq, hsource]
  seekable := by
    obtain ⟨pos, hsource⟩ := hadv.source
    rw [hsource]
    exact h.seekable.moved pos
  short := h.short
  pos_eq := rfl
  place_eq := by
    rw [← h.place_eq]
    exact hadv.place
  le := hcount

theorem Over.take (h : s.Over content p) {count : Nat} {bytes : Bytes}
    (htake : InputStream.take count s = .ok bytes t) : t.Over content (p + count) := by
  have hlength := h.length_ahead
  have hle := h.le
  by_cases hcount : count ≤ s.ahead.length
  · obtain ⟨t', ht', u, hadv, rfl⟩ := take_ok h.sound hcount
    rw [ht'] at htake
    cases htake
    rw [h.pos_eq]
    exact h.advance hadv (by omega)
  · obtain ⟨t', ht', -⟩ := take_short h.sound (Nat.lt_of_not_le hcount)
    rw [ht'] at htake
    cases htake

theorem Over.atEnd (h : s.Over content p) {b : Bool} (hend : InputStream.atEnd s = .ok b t) :
    t.Over content p := by
  obtain ⟨t', ht', hadv⟩ := atEnd_ok h.sound
  rw [ht'] at hend
  cases hend
  have hover := h.advance hadv h.le
  have hpos : t.pos = p := hadv.pos.trans h.pos_eq
  rw [Nat.add_zero, ← hpos] at hover
  rwa [← hpos]

theorem Over.exec (h : s.Over content p) {decoder : Decoder α} {value : α}
    (hexec : decoder.exec s = .ok value t) : ∃ q, t.Over content q := by
  induction decoder generalizing s p with
  | done v =>
    cases hexec
    exact ⟨p, h⟩
  | fail e => cases hexec
  | need count next ih =>
    simp only [Decoder.exec] at hexec
    split at hexec
    · next bytes u hu => exact ih bytes (h.take hu) hexec
    · cases hexec

theorem Over.exec_front (h : s.Over content p) {decoder : Decoder α} {value : α}
    {front rest : Bytes} (hcontent : content.toList.drop p = front ++ rest)
    (hrun : decoder.run (front ++ rest) = .ok (value, rest)) :
    ∃ t : InputStream, decoder.exec s = .ok value t ∧ t.Over content (p + front.length) := by
  have hahead := h.ahead
  rw [hcontent] at hahead
  obtain ⟨t, ht, hahead'⟩ := TypedStream.exec_front hahead hrun
  obtain ⟨q, hover⟩ := h.exec ht
  have hpos : q = p + front.length := hover.pos_eq.symm.trans hahead'.2.1
  rw [hpos] at hover
  exact ⟨t, ht, hover⟩

-- ---------------------------------------------------------------------------
-- Seeks
-- ---------------------------------------------------------------------------

theorem Placed.emptied (h : s.Placed content p) {offset : Nat} (ho : offset * 2 < sizeLimit) :
    Placed { s with
      source := { s.source with pos := offset }, buffer := #[], used := 0, pos := offset }
      content offset where
  sound := (h.sound.emptied offset).at offset
  content_eq := h.content_eq
  seekable := h.seekable.moved offset
  short := h.short
  low := ho
  pos_eq := rfl
  place_eq := rfl

theorem Placed.seek_ok (h : s.Placed content p) {offset : Nat} (ho : offset * 2 < sizeLimit) :
    ∃ t, seek (signedOffset offset) s = .ok offset t ∧ t.Placed content offset := by
  have hplace := h.place_eq
  obtain ⟨t, ht, hintact, hpos, hat, position, hsource⟩ := h.sound.intact.seek_ok h.seekable.pipe
    (h.pos_eq.trans hplace.symm) (by rw [hplace]; exact Nat.le_of_lt h.low) ho
  have hseekable : t.source.Seekable := by
    rw [hsource]
    exact h.seekable.moved position
  refine ⟨t, ?_, hintact.sound_of_no_fault hseekable.reliable.fault, ?_, hseekable, h.short, ho,
    hpos, hat⟩
  · rw [signedOffset_small ho, ht]
  · rw [hsource]
    exact h.content_eq

theorem Over.seek_ok (h : s.Over content p) {offset : Nat} (ho : offset ≤ content.size) :
    ∃ t, seek (signedOffset offset) s = .ok offset t ∧ t.Over content offset := by
  have hlow : offset * 2 < sizeLimit := Nat.lt_of_le_of_lt (Nat.mul_le_mul_right 2 ho) h.short
  obtain ⟨t, ht, hplaced⟩ := h.placed.seek_ok hlow
  exact ⟨t, ht, hplaced.over ho⟩

theorem Placed.seek_end (h : s.Placed content p) {distance : Nat} (hpos : 0 < distance)
    (hle : distance ≤ content.size) :
    ∃ t, seek (-distance) s = .ok (content.size - distance) t ∧
      t.Over content (content.size - distance) := by
  have hshort := h.short
  have hend : s.source.seekEnd (-distance) =
      (.ok (), { s.source with pos := content.size - distance }) := by
    refine h.seekable.seekEnd_ok ?_ (by omega)
    rw [h.content_eq]
    omega
  rw [seek, if_pos (by omega), hend]
  exact ⟨_, rfl, (h.emptied (by omega)).over (Nat.sub_le _ _)⟩

/-- There is no place in front of the content. -/
theorem Placed.seek_before (h : s.Placed content p) {distance : Nat}
    (hlt : content.size < distance) :
    ∃ t, seek (-distance) s = .error (.io .invalidInput) t := by
  have hend : s.source.seekEnd (-distance) = (.error .invalidInput, s.source) := by
    refine h.seekable.seekEnd_before ?_
    rw [h.content_eq]
    omega
  rw [seek, if_pos (by omega), hend]
  exact ⟨_, rfl⟩

end

end InputStream

end TypedStream
