import TypedStream.Proofs.Input.Counting

/-!
# Streams over devices that may fail

A device may fail at a place of its content, or at a seek from its end. A stream over it stands at
a place of the content as long as its reads succeed (`InputStream.Stationed`), and a seek that
fails leaves it there. Even where a read has failed, a seek from the end brings it back to a place
(`InputStream.Upon.seek_end`).
-/

namespace TypedStream

theorem signedOffset_bounds (word : Nat) :
    -(sizeLimit : Int) ≤ signedOffset word * 2 ∧ signedOffset word * 2 < sizeLimit := by
  have hlow := Int.le_bmod (x := (word : Int)) (m := sizeLimit) (by decide)
  have hhigh := Int.bmod_lt (x := (word : Int)) (m := sizeLimit) (by decide)
  rw [signedOffset]
  simp only [sizeLimit] at *
  omega

/-- `found` is the device `source` later on: it may stand elsewhere, and may have counted seeks. -/
structure Source.Later (source found : Source) : Prop where
  eq : ∃ pos endSeeks, found = { source with pos, endSeeks }
  uncounted : source.endSeeks = none → found.endSeeks = none

namespace Source.Later

variable {source found : Source}

theorem refl (source : Source) : source.Later source := ⟨⟨_, _, rfl⟩, id⟩

theorem content (h : source.Later found) : found.content = source.content := by
  obtain ⟨pos, endSeeks, rfl⟩ := h.eq
  rfl

theorem pipe (h : source.Later found) : found.pipe = source.pipe := by
  obtain ⟨pos, endSeeks, rfl⟩ := h.eq
  rfl

theorem fault (h : source.Later found) : found.fault = source.fault := by
  obtain ⟨pos, endSeeks, rfl⟩ := h.eq
  rfl

theorem endFault (h : source.Later found) : found.endFault = source.endFault := by
  obtain ⟨pos, endSeeks, rfl⟩ := h.eq
  rfl

theorem moved (h : source.Later found) (pos : Nat) : source.Later { found with pos } := by
  obtain ⟨_, endSeeks, rfl⟩ := h.eq
  exact ⟨⟨pos, endSeeks, rfl⟩, h.uncounted⟩

theorem counted (h : source.Later found) {endSeeks : Option Nat}
    (hcount : found.endSeeks = none → endSeeks = none) : source.Later { found with endSeeks } := by
  obtain ⟨pos, _, rfl⟩ := h.eq
  exact ⟨⟨pos, endSeeks, rfl⟩, fun hnone => hcount (h.uncounted hnone)⟩

end Source.Later

namespace InputStream

/-- The stream reads from this device. -/
structure Upon (s : InputStream) (source : Source) : Prop where
  intact : s.Intact
  later : source.Later s.source

/-- The stream stands at place `p` of the device's content, and counts its positions so. -/
structure Stationed (s : InputStream) (source : Source) (p : Nat) : Prop
    extends s.Upon source where
  pos_eq : s.pos = p
  place_eq : s.place = p

theorem stationed_open {source : Source} (hchunk : source.chunk ≠ some 0) (bufferSize : Nat) :
    (InputStream.open source bufferSize source.pos).Stationed source source.pos where
  intact := by
    have hsteady : Source.Reliable { source with fault := none } := ⟨rfl, hchunk⟩
    exact ⟨sound_open hsteady bufferSize source.pos, fun hsize => absurd hsize (Nat.lt_irrefl 0)⟩
  later := .refl source
  pos_eq := rfl
  place_eq := rfl

section
variable {s t : InputStream} {source : Source} {p count : Nat}

theorem Upon.counting (h : s.Upon source) {endSeeks : Option Nat}
    (hcount : s.source.endSeeks = none → endSeeks = none) : (s.counting endSeeks).Upon source where
  intact := ⟨⟨⟨rfl, h.intact.chunk⟩, h.intact.capacity_pos, h.intact.sound.used_le,
    h.intact.sound.size_le, h.intact.sound.buffer_eq⟩, h.intact.clear⟩
  later := h.later.counted hcount

theorem Upon.advance (h : s.Upon source) (hadv : Advances s t count) : t.Upon source where
  intact := hadv.intact
  later := by
    obtain ⟨pos, hsource⟩ := hadv.source
    rw [hsource]
    exact h.later.moved pos

theorem Upon.at (h : s.Upon source) (pos : Nat) : Upon { s with pos } source :=
  ⟨h.intact.at pos, h.later⟩

theorem Stationed.counting (h : s.Stationed source p) {endSeeks : Option Nat}
    (hcount : s.source.endSeeks = none → endSeeks = none) :
    (s.counting endSeeks).Stationed source p where
  toUpon := h.toUpon.counting hcount
  pos_eq := h.pos_eq
  place_eq := h.place_eq

theorem Stationed.advance (h : s.Stationed source p) (hadv : Advances s t count) :
    Stationed { t with pos := p + count } source (p + count) where
  toUpon := (h.toUpon.advance hadv).at _
  pos_eq := rfl
  place_eq := by
    rw [← h.place_eq]
    exact hadv.place

theorem Upon.bound_le (h : s.Upon source) : s.cursor.bound ≤ source.content.size := by
  rw [← h.later.content]
  exact s.bound_le_size

theorem Stationed.ahead_eq (h : s.Stationed source p) :
    s.ahead = source.content.toList.drop p := by
  rw [InputStream.ahead, h.later.content, h.place_eq]

-- ---------------------------------------------------------------------------
-- Requests
-- ---------------------------------------------------------------------------

theorem Upon.take (h : s.Upon source) (count : Nat) :
    (∃ bytes t, InputStream.take count s = .ok bytes t ∧ t.Upon source) ∨
      ∃ error t, InputStream.take count s = .error error t ∧ t.Upon source := by
  by_cases hcount : count = 0 ∨ s.place + count ≤ s.cursor.bound
  · obtain ⟨_, ht, u, hadv, rfl⟩ := h.intact.take_ok hcount
    exact .inl ⟨_, _, ht, (h.advance hadv).at _⟩
  · obtain ⟨h0, hshort⟩ := not_or.mp hcount
    obtain ⟨t, ht, hadv⟩ := h.intact.take_short h0 (Nat.lt_of_not_le hshort)
    exact .inr ⟨_, _, ht, h.advance hadv⟩

theorem Upon.atEnd (h : s.Upon source) :
    (∃ ended t, InputStream.atEnd s = .ok ended t ∧ t.Upon source) ∨
      ∃ error t, InputStream.atEnd s = .error error t ∧ t.Upon source := by
  cases hf : s.cursor.faultHere? with
  | some fault =>
    obtain ⟨t, ht, hadv⟩ := h.intact.atEnd_fault hf
    exact .inr ⟨_, _, ht, h.advance hadv⟩
  | none =>
    obtain ⟨t, ht, hadv⟩ := h.intact.atEnd_ok hf
    exact .inl ⟨_, _, ht, h.advance hadv⟩

theorem Stationed.take (h : s.Stationed source p) {bytes : Bytes}
    (htake : InputStream.take count s = .ok bytes t) :
    t.Stationed source (p + count) ∧ (count = 0 ∨ p + count ≤ source.content.size) := by
  by_cases hcount : count = 0 ∨ s.place + count ≤ s.cursor.bound
  · obtain ⟨_, ht, u, hadv, rfl⟩ := h.intact.take_ok hcount
    rw [ht] at htake
    cases htake
    rw [h.pos_eq]
    rw [h.place_eq] at hcount
    exact ⟨h.advance hadv, hcount.imp id fun hle => Nat.le_trans hle h.bound_le⟩
  · obtain ⟨h0, hshort⟩ := not_or.mp hcount
    obtain ⟨u, hu, -⟩ := h.intact.take_short h0 (Nat.lt_of_not_le hshort)
    rw [hu] at htake
    cases htake

theorem Stationed.atEnd (h : s.Stationed source p) {ended : Bool}
    (hend : InputStream.atEnd s = .ok ended t) : t.Stationed source p := by
  cases hf : s.cursor.faultHere? with
  | some fault =>
    obtain ⟨u, hu, -⟩ := h.intact.atEnd_fault hf
    rw [hu] at hend
    cases hend
  | none =>
    obtain ⟨u, hu, hadv⟩ := h.intact.atEnd_ok hf
    rw [hu] at hend
    cases hend
    have hmoved := h.advance hadv
    have hpos : p = t.pos := h.pos_eq.symm.trans hadv.pos.symm
    rw [Nat.add_zero, hpos] at hmoved
    rwa [hpos]

theorem Stationed.exec (h : s.Stationed source p) {decoder : Decoder α} {value : α}
    (hexec : decoder.exec s = .ok value t) :
    ∃ q, t.Stationed source q ∧ (q = p ∨ q ≤ source.content.size) := by
  induction decoder generalizing s p with
  | done found =>
    cases hexec
    exact ⟨p, h, .inl rfl⟩
  | fail error => cases hexec
  | need count next ih =>
    simp only [Decoder.exec] at hexec
    split at hexec
    · next bytes u hu =>
      obtain ⟨hmoved, hcount⟩ := h.take hu
      obtain ⟨q, hq, hle⟩ := ih bytes hmoved hexec
      refine ⟨q, hq, ?_⟩
      rcases hle with rfl | hle
      · rcases hcount with rfl | hcount
        · exact .inl (Nat.add_zero p)
        · exact .inr hcount
      · exact .inr hle
    · cases hexec

-- ---------------------------------------------------------------------------
-- Seeks
-- ---------------------------------------------------------------------------

/-- The stream has emptied its buffer and stands where its device does. -/
def moved (s : InputStream) (target : Nat) : InputStream :=
  { s with source := { s.source with pos := target }, buffer := #[], used := 0, pos := target }

theorem Upon.moved (h : s.Upon source) (target : Nat) :
    (s.moved target).Stationed source target where
  intact := (h.intact.emptied target).at target
  later := h.later.moved target
  pos_eq := rfl
  place_eq := rfl

variable (hpipe : source.pipe = false) (hshort : source.content.size * 2 < sizeLimit)
include hpipe hshort

theorem Upon.seek_end (h : s.Upon source) {offset : Int} (hneg : offset < 0) :
    seek offset s =
      if s.source.endSeeks = some 0 then
        .error (Error.ofFault source.endFault) (s.counting none)
      else if (source.content.size : Int) + offset < 0 then
        .error (.io .invalidInput) (s.counting (s.source.endSeeks.map (· - 1)))
      else
        .ok ((source.content.size : Int) + offset).toNat
          ((s.counting (s.source.endSeeks.map (· - 1))).moved
            ((source.content.size : Int) + offset).toNat) := by
  rw [← h.later.content] at hshort ⊢
  rw [seek, if_pos hneg, Source.seekEnd_eq (h.later.pipe.trans hpipe) (by omega)]
  by_cases hcount : s.source.endSeeks = some 0
  · rw [if_pos hcount, if_pos hcount, ← h.later.endFault]
    rfl
  rw [if_neg hcount, if_neg hcount]
  by_cases hbefore : (s.source.content.size : Int) + offset < 0
  · rw [if_pos hbefore, if_pos hbefore]
    rfl
  · rw [if_neg hbefore, if_neg hbefore]
    rfl

/-- From the end a stream finds its place again, wherever it has got to. -/
theorem Upon.seek_back (h : s.Upon source) {offset : Int} (hneg : offset < 0) {place : Nat}
    (hseek : InputStream.seek offset s = .ok place t) :
    t.Stationed source place ∧ place * 2 < sizeLimit := by
  rw [h.seek_end hpipe hshort hneg] at hseek
  split at hseek
  · cases hseek
  split at hseek
  · cases hseek
  cases hseek
  exact ⟨(h.counting fun hnone => by rw [hnone]; rfl).moved _, by omega⟩

omit hshort in
theorem Stationed.seek_ok (h : s.Stationed source p) (hlow : p * 2 ≤ sizeLimit) {offset : Nat}
    (ho : offset * 2 < sizeLimit) :
    ∃ t, seek offset s = .ok offset t ∧ t.Stationed source offset := by
  obtain ⟨t, ht, hintact, hpos, hat, position, hsource⟩ :=
    h.intact.seek_ok (h.later.pipe.trans hpipe) (h.pos_eq.trans h.place_eq.symm)
      (by rw [h.place_eq]; exact hlow) ho
  refine ⟨t, ht, ⟨hintact, ?_⟩, hpos, hat⟩
  rw [hsource]
  exact h.later.moved position

/-- A seek that succeeds leads to a place that a signed 64-bit word can measure. -/
theorem Stationed.seek (h : s.Stationed source p) (hlow : p * 2 ≤ sizeLimit) {offset : Int}
    (hfits : offset * 2 < sizeLimit) {place : Nat}
    (hseek : InputStream.seek offset s = .ok place t) :
    t.Stationed source place ∧ place * 2 < sizeLimit := by
  by_cases hneg : offset < 0
  · exact h.toUpon.seek_back hpipe hshort hneg hseek
  · obtain ⟨target, rfl⟩ := Int.eq_ofNat_of_zero_le (Int.not_lt.mp hneg)
    have htarget : target * 2 < sizeLimit := by omega
    obtain ⟨u, hu, hstationed⟩ := h.seek_ok hpipe hlow htarget
    rw [hu] at hseek
    cases hseek
    exact ⟨hstationed, htarget⟩

/-- Wherever the stream has got to, a seek leaves it reading from its device. -/
theorem Upon.seek (h : s.Upon source) {offset : Int} {place : Nat}
    (hseek : InputStream.seek offset s = .ok place t) : t.Upon source := by
  by_cases hneg : offset < 0
  · exact (h.seek_back hpipe hshort hneg hseek).1.toUpon
  · rw [InputStream.seek, if_neg hneg] at hseek
    dsimp only at hseek
    split at hseek
    · next hheld =>
      cases hseek
      have hused : (s.used + Int.bmod (offset - s.pos) sizeLimit).toNat ≤ s.buffer.size := by omega
      exact ⟨⟨⟨h.intact.sound.reliable, h.intact.capacity_pos, hused, h.intact.sound.size_le,
        h.intact.sound.buffer_eq⟩, h.intact.clear⟩, h.later⟩
    · split at hseek
      · next found hto =>
        cases hseek
        obtain ⟨-, rfl⟩ := Source.seekTo_inv hto
        exact ((h.moved _).toUpon).at _
      · cases hseek

end

-- ---------------------------------------------------------------------------
-- Streams that can go anywhere
-- ---------------------------------------------------------------------------

/-- The stream stands at a place that a signed 64-bit word can measure. -/
def Settled (s : InputStream) (source : Source) : Prop :=
  ∃ p, s.Stationed source p ∧ p * 2 < sizeLimit

section
variable {s t : InputStream} {source : Source}

theorem Settled.upon (h : s.Settled source) : s.Upon source := by
  obtain ⟨p, hs, -⟩ := h
  exact hs.toUpon

theorem Settled.ahead_eq (h : s.Settled source) : s.ahead = source.content.toList.drop s.pos := by
  obtain ⟨p, hs, -⟩ := h
  rw [hs.ahead_eq, hs.pos_eq]

theorem Settled.counting (h : s.Settled source) {endSeeks : Option Nat}
    (hcount : s.source.endSeeks = none → endSeeks = none) :
    (s.counting endSeeks).Settled source := by
  obtain ⟨p, hs, hlow⟩ := h
  exact ⟨p, hs.counting hcount, hlow⟩

theorem Settled.atEnd (h : s.Settled source) {ended : Bool}
    (hend : InputStream.atEnd s = .ok ended t) : t.Settled source := by
  obtain ⟨p, hs, hlow⟩ := h
  exact ⟨p, hs.atEnd hend, hlow⟩

variable (hshort : source.content.size * 2 < sizeLimit)
include hshort

theorem Settled.take (h : s.Settled source) {count : Nat} {bytes : Bytes}
    (htake : InputStream.take count s = .ok bytes t) : t.Settled source := by
  obtain ⟨p, hs, hlow⟩ := h
  obtain ⟨hmoved, hcount⟩ := hs.take htake
  exact ⟨_, hmoved, by omega⟩

theorem Settled.exec (h : s.Settled source) {decoder : Decoder α} {value : α}
    (hexec : decoder.exec s = .ok value t) : t.Settled source := by
  obtain ⟨p, hs, hlow⟩ := h
  obtain ⟨q, hmoved, hq⟩ := hs.exec hexec
  exact ⟨q, hmoved, by omega⟩

variable (hpipe : source.pipe = false)
include hpipe

theorem Settled.seek (h : s.Settled source) {offset : Int} (hfits : offset * 2 < sizeLimit)
    {place : Nat} (hseek : InputStream.seek offset s = .ok place t) : t.Settled source := by
  obtain ⟨p, hs, hlow⟩ := h
  exact ⟨place, hs.seek hpipe hshort (Nat.le_of_lt hlow) hfits hseek⟩

omit hshort in
theorem Settled.seek_ok (h : s.Settled source) {offset : Nat} (ho : offset * 2 < sizeLimit) :
    ∃ t, InputStream.seek offset s = .ok offset t := by
  obtain ⟨p, hs, hlow⟩ := h
  obtain ⟨t, ht, -⟩ := hs.seek_ok hpipe (Nat.le_of_lt hlow) ho
  exact ⟨t, ht⟩

end

end InputStream

end TypedStream
