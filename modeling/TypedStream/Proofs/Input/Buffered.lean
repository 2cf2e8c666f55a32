import TypedStream.Input.Stream
import TypedStream.Proofs.Input.Cursor
import TypedStream.Proofs.Input.Lossless

/-!
# What buffered streams deliver

What the buffer of a stream holds is always the stretch of content in front of the source's
position, so neither the size of the buffer nor that of the read calls shows in the bytes
delivered: a stream stands at a place of the content and hands out what a cursor at that place
would, up to the place where the source fails. Over a source that does not fail it is lossless.
-/

namespace TypedStream

namespace Source

/-- The source works without faults, and a read call for a byte delivers one if there is one. -/
structure Reliable (source : Source) : Prop where
  fault : source.fault = none
  chunk : source.chunk ≠ some 0

theorem Reliable.moved {source : Source} (h : source.Reliable) (pos : Nat) :
    Reliable { source with pos } := ⟨h.fault, h.chunk⟩

theorem reach_bounds {source : Source} (hchunk : source.chunk ≠ some 0)
    (hclear : ∀ {limit fault}, source.fault = some (limit, fault) → source.pos < limit)
    {count : Nat} (hc : 0 < count) :
    0 < source.reach count ∧ source.reach count ≤ count ∧
      ∀ {limit fault}, source.fault = some (limit, fault) →
        source.pos + source.reach count ≤ limit := by
  have hchunked : 0 < min count (source.chunk.getD count) := by
    cases hk : source.chunk with
    | none => simpa using hc
    | some k =>
      have : k ≠ 0 := fun h0 => hchunk (by rw [hk, h0])
      simp only [Option.getD_some]
      omega
  unfold reach
  split
  · next limit fault hfault =>
    have hlt := hclear hfault
    dsimp only
    refine ⟨by omega, by omega, fun {_ _} h => ?_⟩
    cases hfault.symm.trans h
    omega
  · next hfault =>
    refine ⟨hchunked, Nat.min_le_left _ _, fun {_ _} h => ?_⟩
    cases hfault.symm.trans h

theorem size_le_of_read {source source' : Source} {count : Nat} {got : Array UInt8}
    (h : source.read count = .ok (got, source')) : got.size ≤ count := by
  have hreach : source.reach count ≤ count := by
    unfold reach
    split
    · exact Nat.le_trans (Nat.min_le_left _ _) (Nat.min_le_left _ _)
    · exact Nat.min_le_left _ _
  have hdeliver : (source.content.extract source.pos (source.pos + source.reach count)).size ≤
      count := by
    rw [Array.size_extract]
    omega
  unfold read at h
  split at h
  · split at h
    · cases h
    · cases h
      exact hdeliver
  · cases h
    exact hdeliver

/-- A stretch of the content ends with the content. -/
theorem extract_short (content : Array UInt8) (pos count : Nat) :
    content.extract pos (pos + count) =
      content.extract pos (pos + min count (content.size - pos)) := by
  apply Array.ext
  · simp only [Array.size_extract]
    omega
  · intro i _ _
    simp

/-- A read call in front of the fault delivers the next stretch of the content, none of it from
behind the fault, and an empty one only at the end. -/
theorem read_ok {source : Source} (hchunk : source.chunk ≠ some 0)
    (hclear : ∀ {limit fault}, source.fault = some (limit, fault) → source.pos < limit)
    {count : Nat} (hc : 0 < count) :
    ∃ size, source.read count = .ok (source.content.extract source.pos (source.pos + size),
        { source with pos := source.pos + size }) ∧
      (source.content.extract source.pos (source.pos + size)).size = size ∧ size ≤ count ∧
      (size = 0 → source.content.size ≤ source.pos) ∧
      ∀ {limit fault}, source.fault = some (limit, fault) → source.pos + size ≤ limit := by
  obtain ⟨hpos, hle, hfront⟩ := reach_bounds hchunk hclear hc
  have hsize : (source.content.extract source.pos (source.pos +
      min (source.reach count) (source.content.size - source.pos))).size =
        min (source.reach count) (source.content.size - source.pos) := by
    simp only [Array.size_extract]
    omega
  refine ⟨min (source.reach count) (source.content.size - source.pos), ?_, hsize, by omega,
    by omega, fun hfault => ?_⟩
  · unfold read
    dsimp only
    rw [extract_short source.content source.pos (source.reach count), hsize]
    split
    · next hfault => rw [if_neg (Nat.not_le.mpr (hclear hfault))]
    · rfl
  · have := hfront hfault
    omega

theorem read_fault {source : Source} {limit : Nat} {fault : DeviceFault}
    (hfault : source.fault = some (limit, fault)) (hle : limit ≤ source.pos) (count : Nat) :
    source.read count = .error fault := by
  simp only [read, hfault, if_pos hle]

end Source

namespace InputStream

/-- Where in the source the next byte lies. -/
def place (s : InputStream) : Nat := s.source.pos - s.buffered

def ahead (s : InputStream) : Bytes := s.source.content.toList.drop s.place

/-- The buffer holds the stretch of content in front of the source's position. -/
structure Sound (s : InputStream) : Prop where
  reliable : s.source.Reliable
  capacity_pos : 0 < s.capacity
  used_le : s.used ≤ s.buffer.size
  size_le : s.buffer.size ≤ s.source.pos
  buffer_eq : s.buffer = s.source.content.extract (s.source.pos - s.buffer.size) s.source.pos

theorem sound_open {source : Source} (h : source.Reliable) (bufferSize offset : Nat) :
    Sound (InputStream.open source bufferSize offset) where
  reliable := h
  capacity_pos := Nat.lt_of_lt_of_le (by decide) (Nat.le_max_right _ _)
  used_le := Nat.le_refl 0
  size_le := Nat.zero_le _
  buffer_eq := (Array.extract_empty_of_stop_le_start (Nat.le_refl _)).symm

theorem place_add_buffered {s : InputStream} (h : s.Sound) :
    s.place + s.buffered = s.source.pos := by
  have := h.size_le
  simp only [place, buffered]
  omega

theorem length_ahead (s : InputStream) : s.ahead.length = s.source.content.size - s.place := by
  simp [ahead]

theorem place_of_drained {s : InputStream} (h : s.buffered = 0) : s.place = s.source.pos := by
  rw [place, h, Nat.sub_zero]

theorem ahead_of_ended {s : InputStream} (h : s.buffered = 0)
    (hend : s.source.content.size ≤ s.source.pos) : s.ahead = [] := by
  apply List.eq_nil_of_length_eq_zero
  rw [length_ahead, place_of_drained h]
  omega

theorem buffered_le {s : InputStream} (h : s.Sound) : s.buffered ≤ s.ahead.length := by
  have hb := congrArg Array.size h.buffer_eq
  have := h.size_le
  rw [Array.size_extract] at hb
  rw [length_ahead]
  simp only [place, buffered]
  omega

theorem peek_eq {s : InputStream} (h : s.Sound) {count : Nat} (hc : count ≤ s.buffered) :
    s.peek count = s.ahead.take count := by
  have hsize := h.size_le
  have hused := h.used_le
  have hplace : s.source.pos - s.buffer.size + s.used = s.place := by
    simp only [place, buffered]
    omega
  have hend : min (s.source.pos - s.buffer.size + (s.used + count)) s.source.pos =
      s.place + count := by
    rw [← hplace]
    simp only [buffered] at hc
    omega
  unfold peek
  rw [h.buffer_eq, Array.extract_extract, hend, hplace]
  simp [ahead, List.extract_eq_take_drop]

theorem length_peek (s : InputStream) (count : Nat) :
    (s.peek count).length = min count s.buffered := by
  simp only [peek, Array.length_toList, Array.size_extract, buffered]
  omega

theorem peek_eq_take {s : InputStream} (h : s.Sound) (count : Nat) :
    s.peek count = s.ahead.take (s.peek count).length := by
  have hmin : s.peek count = s.peek (min count s.buffered) := by
    unfold peek buffered
    congr 1
    apply Array.ext
    · simp only [Array.size_extract]
      omega
    · intro i _ _
      simp
  rw [length_peek, hmin, peek_eq h (Nat.min_le_right _ _)]

/-- The stream over its source without the fault. -/
def steady (s : InputStream) : InputStream :=
  { s with source := { s.source with fault := none } }

/-- The buffer holds the stretch of content in front of the source's position, and nothing from
behind the fault. -/
structure Intact (s : InputStream) : Prop where
  sound : s.steady.Sound
  clear : 0 < s.buffer.size →
    ∀ {limit fault}, s.source.fault = some (limit, fault) → s.source.pos ≤ limit

theorem Sound.intact {s : InputStream} (h : s.Sound) : s.Intact where
  sound := ⟨⟨rfl, h.reliable.chunk⟩, h.capacity_pos, h.used_le, h.size_le, h.buffer_eq⟩
  clear _ _ _ hfault := by
    rw [h.reliable.fault] at hfault
    cases hfault

theorem Intact.chunk {s : InputStream} (h : s.Intact) : s.source.chunk ≠ some 0 :=
  h.sound.reliable.chunk

theorem Intact.capacity_pos {s : InputStream} (h : s.Intact) : 0 < s.capacity :=
  h.sound.capacity_pos

theorem Intact.place_add_buffered {s : InputStream} (h : s.Intact) :
    s.place + s.buffered = s.source.pos := InputStream.place_add_buffered (s := s.steady) h.sound

theorem Intact.sound_of_no_fault {s : InputStream} (h : s.Intact) (hfault : s.source.fault = none) :
    s.Sound :=
  ⟨⟨hfault, h.chunk⟩, h.sound.capacity_pos, h.sound.used_le, h.sound.size_le,
    h.sound.buffer_eq⟩

/-- The cursor that stands where the stream stands. -/
def cursor (s : InputStream) : ByteCursor where
  content := s.source.content.toList
  pos := s.place
  fault := s.source.fault
  endSeeks := s.source.endSeeks
  endFault := s.source.endFault

theorem bound_le_size (s : InputStream) : s.cursor.bound ≤ s.source.content.size := by
  have := s.cursor.bound_le
  rwa [cursor, Array.length_toList] at this

/-- `t` is `s` after `count` further bytes have been handed out; they are not counted yet. -/
structure Advances (s t : InputStream) (count : Nat) : Prop where
  intact : t.Intact
  place : t.place = s.place + count
  source : ∃ pos, t.source = { s.source with pos }
  pos : t.pos = s.pos

theorem Advances.refl {s : InputStream} (h : s.Intact) : Advances s s 0 :=
  ⟨h, rfl, ⟨s.source.pos, rfl⟩, rfl⟩

theorem Advances.trans {s t u : InputStream} {m n : Nat} (h : Advances s t m)
    (h' : Advances t u n) : Advances s u (m + n) := by
  obtain ⟨p, hp⟩ := h.source
  obtain ⟨q, hq⟩ := h'.source
  exact ⟨h'.intact, by rw [h'.place, h.place, Nat.add_assoc], ⟨q, by rw [hq, hp]⟩,
    h'.pos.trans h.pos⟩

theorem Advances.cursor {s t : InputStream} {count : Nat} (h : Advances s t count) :
    t.cursor = { s.cursor with pos := s.cursor.pos + count } := by
  obtain ⟨p, hp⟩ := h.source
  simp only [InputStream.cursor, h.place, hp]

theorem Advances.bound {s t : InputStream} {count : Nat} (h : Advances s t count) :
    t.cursor.bound = s.cursor.bound := by
  rw [h.cursor]
  rfl

theorem Advances.ahead {s t : InputStream} {count : Nat} (h : Advances s t count) :
    t.ahead = s.ahead.drop count := by
  obtain ⟨p, hp⟩ := h.source
  simp only [InputStream.ahead, h.place, hp, List.drop_drop]

theorem Advances.sound {s t : InputStream} {count : Nat} (h : Advances s t count) (hs : s.Sound) :
    t.Sound := by
  obtain ⟨p, hp⟩ := h.source
  refine h.intact.sound_of_no_fault ?_
  rw [hp]
  exact hs.reliable.fault

theorem Sound.at {s : InputStream} (h : s.Sound) (pos : Nat) : Sound { s with pos } :=
  ⟨h.reliable, h.capacity_pos, h.used_le, h.size_le, h.buffer_eq⟩

theorem Intact.at {s : InputStream} (h : s.Intact) (pos : Nat) : Intact { s with pos } :=
  ⟨h.sound.at pos, h.clear⟩

/-- Wherever the source goes, an empty buffer holds all that lies in between: nothing. -/
theorem Sound.emptied {s : InputStream} (h : s.Sound) (pos : Nat) :
    Sound { s with source := { s.source with pos }, buffer := #[], used := 0 } :=
  ⟨h.reliable.moved pos, h.capacity_pos, Nat.le_refl 0, Nat.zero_le _,
    (Array.extract_empty_of_stop_le_start (Nat.le_refl _)).symm⟩

theorem Intact.emptied {s : InputStream} (h : s.Intact) (pos : Nat) :
    Intact { s with source := { s.source with pos }, buffer := #[], used := 0 } where
  sound := h.sound.emptied pos
  clear hsize := absurd hsize (Nat.lt_irrefl 0)

-- ---------------------------------------------------------------------------
-- Filling and reading
-- ---------------------------------------------------------------------------

section
variable {s t : InputStream} {count : Nat}

theorem size_pos (hb : s.buffered ≠ 0) : 0 < s.buffer.size := by
  unfold buffered at hb
  omega

theorem lt_of_clear (h : s.cursor.faultHere? = none) (hb : s.buffered = 0)
    {limit : Nat} {fault : DeviceFault} (hfault : s.source.fault = some (limit, fault)) :
    s.source.pos < limit := by
  rw [← place_of_drained hb]
  exact ByteCursor.lt_of_clear (c := s.cursor) h hfault

/-- A stream that still holds bytes stands in front of the fault. -/
theorem Intact.drained_of_fault (h : s.Intact) {fault : DeviceFault}
    (hf : s.cursor.faultHere? = some fault) : s.buffered = 0 := by
  obtain ⟨limit, hfault, hle⟩ := ByteCursor.fault_of_here hf
  have hplace := h.place_add_buffered
  have hle : limit ≤ s.place := hle
  by_contra hb
  have := h.clear (size_pos hb) hfault
  omega

theorem Intact.fault_read (h : s.Intact) {fault : DeviceFault}
    (hf : s.cursor.faultHere? = some fault) (count : Nat) : s.source.read count = .error fault := by
  obtain ⟨limit, hfault, hle⟩ := ByteCursor.fault_of_here hf
  refine Source.read_fault hfault ?_ count
  rw [← place_of_drained (h.drained_of_fault hf)]
  exact hle

theorem Intact.fill_ok (h : s.Intact) (hclear : s.cursor.faultHere? = none) :
    ∃ t, fill s = .ok () t ∧ Advances s t 0 ∧ (t.buffered = 0 → s.ahead = []) := by
  unfold fill
  split
  · next hb => exact ⟨s, rfl, .refl h, fun h0 => absurd h0 (by omega)⟩
  next hb =>
  have hdrained : s.buffered = 0 := Nat.eq_zero_of_not_pos hb
  obtain ⟨size, hread, hsize, hle, hend, hfront⟩ := Source.read_ok h.chunk
    (lt_of_clear hclear hdrained) h.capacity_pos
  rw [hread]
  refine ⟨_, rfl, ⟨⟨⟨h.sound.reliable.moved _, h.sound.capacity_pos, Nat.zero_le _, ?_, ?_⟩,
    fun _ => hfront⟩, ?_, ⟨_, rfl⟩, rfl⟩, ?_⟩
  · simp only [steady, hsize]
    omega
  · simp only [steady, hsize]
    rw [Nat.add_sub_cancel]
  · rw [place_of_drained hdrained]
    simp only [place, buffered, hsize]
    omega
  · intro h0
    simp only [buffered, hsize, Nat.sub_zero] at h0
    exact ahead_of_ended hdrained (hend h0)

theorem Intact.fill_fault (h : s.Intact) {fault : DeviceFault}
    (hf : s.cursor.faultHere? = some fault) :
    ∃ t, fill s = .error fault t ∧ Advances s t 0 := by
  have hdrained := h.drained_of_fault hf
  rw [fill, if_neg (by omega), h.fault_read hf]
  exact ⟨_, rfl, h.emptied _, (place_of_drained hdrained).symm, ⟨_, rfl⟩, rfl⟩

theorem Intact.advances_used (h : s.Intact) (hc : count ≤ s.buffered) :
    Advances s { s with used := s.used + count } count where
  intact := by
    refine ⟨⟨h.sound.reliable, h.sound.capacity_pos, ?_, h.sound.size_le, h.sound.buffer_eq⟩,
      h.clear⟩
    have hused : s.used ≤ s.buffer.size := h.sound.used_le
    show s.used + count ≤ s.buffer.size
    simp only [buffered] at hc
    omega
  place := by
    have hsize : s.buffer.size ≤ s.source.pos := h.sound.size_le
    simp only [place, buffered] at hc ⊢
    omega
  source := ⟨s.source.pos, rfl⟩
  pos := rfl

theorem Intact.buffered_within (h : s.Intact) (hb : s.buffered ≠ 0) :
    s.place + s.buffered ≤ s.cursor.bound := by
  have hahead : s.buffered ≤ s.ahead.length := buffered_le (s := s.steady) h.sound
  rw [length_ahead] at hahead
  refine ByteCursor.le_bound ?_ fun hfault => ?_
  · simp only [cursor, Array.length_toList]
    omega
  · rw [h.place_add_buffered]
    exact h.clear (size_pos hb) hfault

/-- In front of the fault a read delivers what comes next, and nothing only at the end. -/
theorem Intact.readSome_ok (h : s.Intact) (hclear : s.cursor.faultHere? = none) (hc : 0 < count) :
    ∃ got t, readSome count s = .ok got t ∧ Advances s t got.length ∧ got.length ≤ count ∧
      got = s.ahead.take got.length ∧ (got.length = 0 → s.ahead = []) ∧
      (got.length = 0 ∨ s.place + got.length ≤ s.cursor.bound) := by
  unfold readSome
  split
  · next hbig =>
    have hplace := place_of_drained hbig.1
    obtain ⟨size, hread, hsize, hle, hend, hfront⟩ := Source.read_ok h.chunk
      (lt_of_clear hclear hbig.1) hc
    simp only [hread]
    refine ⟨_, _, rfl, ⟨h.emptied _, ?_, ⟨_, rfl⟩, rfl⟩, ?_, ?_, ?_, ?_⟩
    · rw [hplace, Array.length_toList, hsize]
      rfl
    · rw [Array.length_toList, hsize]
      exact hle
    · rw [Array.length_toList, hsize, ahead, hplace, Array.toList_extract,
        List.extract_eq_take_drop, Nat.add_sub_cancel_left]
    · intro h0
      rw [Array.length_toList, hsize] at h0
      exact ahead_of_ended hbig.1 (hend h0)
    · rw [Array.length_toList, hsize, hplace]
      rw [Array.size_extract] at hsize
      refine or_iff_not_imp_left.mpr fun h0 => ByteCursor.le_bound ?_ hfront
      simp only [cursor, Array.length_toList]
      omega
  · obtain ⟨t, ht, hadv, hend⟩ := h.fill_ok hclear
    have hahead : t.ahead = s.ahead := by simpa using hadv.ahead
    have hlen := length_peek t count
    have hle : (t.peek count).length ≤ t.buffered := by omega
    simp only [ht]
    refine ⟨_, _, rfl, ?_, by omega, ?_, ?_, ?_⟩
    · simpa using hadv.trans (hadv.intact.advances_used hle)
    · rw [← hahead]
      exact peek_eq_take (s := t.steady) hadv.intact.sound count
    · intro h0
      exact hend (by omega)
    · refine or_iff_not_imp_left.mpr fun h0 => ?_
      have hwithin := hadv.intact.buffered_within (by omega)
      rw [hadv.place, hadv.bound] at hwithin
      omega

theorem Intact.readSome_fault (h : s.Intact) {fault : DeviceFault}
    (hf : s.cursor.faultHere? = some fault) (count : Nat) :
    ∃ t, readSome count s = .error fault t ∧ Advances s t 0 := by
  unfold readSome
  split
  · dsimp only
    rw [h.fault_read hf]
    exact ⟨_, rfl, h.emptied _, (place_of_drained (h.drained_of_fault hf)).symm, ⟨_, rfl⟩, rfl⟩
  · obtain ⟨t, ht, hadv⟩ := h.fill_fault hf
    simp only [ht]
    exact ⟨t, rfl, hadv⟩

-- ---------------------------------------------------------------------------
-- Exact runs
-- ---------------------------------------------------------------------------

theorem ahead_length (s : InputStream) : s.ahead.length = s.cursor.content.length - s.place := by
  rw [length_ahead]
  simp [cursor]

theorem Intact.gather_ok {wanted : Nat} (found : Bytes) (h : s.Intact)
    (hw : wanted = 0 ∨ s.place + wanted ≤ s.cursor.bound) :
    ∃ t, gather wanted found s = .ok (found.reverse ++ s.ahead.take wanted) t ∧
      Advances s t wanted := by
  induction wanted using Nat.strongRecOn generalizing found s with
  | ind wanted ih =>
    unfold gather
    split
    · next h0 =>
      subst h0
      exact ⟨s, by simp, .refl h⟩
    next h0 =>
    have hbound : s.place + wanted ≤ s.cursor.bound := hw.resolve_left h0
    have hclear : s.cursor.faultHere? = none := by
      by_contra hfault
      obtain ⟨fault, hf⟩ := Option.ne_none_iff_exists'.mp hfault
      have hle : s.cursor.bound ≤ s.place := ByteCursor.bound_le_pos hf
      omega
    obtain ⟨got, t, ht, hadv, hle, hgot, hend, -⟩ := h.readSome_ok hclear (Nat.pos_of_ne_zero h0)
    simp only [ht]
    split
    · next hg =>
      have hnil := congrArg List.length (hend hg)
      have := s.cursor.bound_le
      rw [ahead_length, List.length_nil] at hnil
      omega
    next hg =>
    obtain ⟨u, hu, hadv'⟩ := ih (wanted - got.length) (by omega)
      (got.reverseAux found) hadv.intact
      (by rw [hadv.place, hadv.bound]; omega)
    refine ⟨u, ?_, ?_⟩
    · have hsplit : s.ahead.take wanted =
          s.ahead.take got.length ++ (s.ahead.drop got.length).take (wanted - got.length) := by
        rw [← List.take_add, Nat.add_sub_cancel' hle]
      rw [hu, hadv.ahead, hsplit, ← hgot]
      simp [List.reverseAux_eq]
    · have := hadv.trans hadv'
      rwa [Nat.add_sub_cancel' hle] at this

/-- A run that passes the bound takes up all there is in front of it. -/
theorem Intact.gather_short {wanted : Nat} (found : Bytes) (h : s.Intact) (h0 : wanted ≠ 0)
    (hw : s.cursor.bound < s.place + wanted) :
    ∃ t, gather wanted found s = .error s.cursor.shortage t ∧
      Advances s t (s.cursor.bound - s.place) := by
  induction wanted using Nat.strongRecOn generalizing found s with
  | ind wanted ih =>
    rw [gather, dif_neg h0]
    cases hf : s.cursor.faultHere? with
    | some fault =>
      obtain ⟨t, ht, hadv⟩ := h.readSome_fault hf wanted
      have hle : s.cursor.bound ≤ s.place := ByteCursor.bound_le_pos hf
      rw [ht, ByteCursor.shortage_of_fault hf, Nat.sub_eq_zero_of_le hle]
      exact ⟨t, rfl, hadv⟩
    | none =>
      obtain ⟨got, t, ht, hadv, hle, -, hend, hwithin⟩ := h.readSome_ok hf (Nat.pos_of_ne_zero h0)
      simp only [ht]
      split
      · next hg =>
        have hnil := congrArg List.length (hend hg)
        rw [ahead_length, List.length_nil] at hnil
        have := s.cursor.bound_le
        rw [hg] at hadv
        refine ⟨t, ?_, ?_⟩
        · rw [ByteCursor.shortage_of_ended hf (by simp only [cursor] at hnil ⊢; omega)]
        · rwa [Nat.sub_eq_zero_of_le (by omega)]
      next hg =>
      have hpart : s.cursor.pos + got.length ≤ s.cursor.bound := hwithin.resolve_left hg
      have hpart' : s.place + got.length ≤ s.cursor.bound := hpart
      obtain ⟨u, hu, hadv'⟩ := ih (wanted - got.length) (by omega)
        (got.reverseAux found) hadv.intact (by omega) (by rw [hadv.place, hadv.bound]; omega)
      refine ⟨u, ?_, ?_⟩
      · rw [hu, hadv.cursor, ByteCursor.shortage_moved hpart]
      · have htrans := hadv.trans hadv'
        rw [hadv.place, hadv.bound] at htrans
        have hsum : got.length + (s.cursor.bound - (s.place + got.length)) =
            s.cursor.bound - s.place := by omega
        rwa [hsum] at htrans

theorem Intact.take_ok (h : s.Intact) (hc : count = 0 ∨ s.place + count ≤ s.cursor.bound) :
    ∃ t, take count s = .ok (s.ahead.take count) t ∧
      ∃ u, Advances s u count ∧ t = { u with pos := s.pos + count } := by
  unfold take
  split
  · next hb =>
    have hpeek : s.peek count = s.ahead.take count := peek_eq (s := s.steady) h.sound hb
    rw [hpeek]
    exact ⟨_, rfl, _, h.advances_used hb, rfl⟩
  · obtain ⟨u, hu, hadv⟩ := h.gather_ok [] hc
    simp only [hu, hadv.pos]
    exact ⟨_, by simp, u, hadv, rfl⟩

theorem Intact.take_short (h : s.Intact) (h0 : count ≠ 0)
    (hc : s.cursor.bound < s.place + count) :
    ∃ t, take count s = .error s.cursor.shortage t ∧
      Advances s t (s.cursor.bound - s.place) := by
  have hb : ¬count ≤ s.buffered := fun hle => by
    have := h.buffered_within (by omega)
    omega
  rw [take, if_neg hb]
  obtain ⟨t, ht, hadv⟩ := h.gather_short [] h0 hc
  exact ⟨t, by simp only [ht], hadv⟩

theorem Intact.atEnd_ok (h : s.Intact) (hclear : s.cursor.faultHere? = none) :
    ∃ t, atEnd s = .ok s.ahead.isEmpty t ∧ Advances s t 0 := by
  obtain ⟨t, ht, hadv, hend⟩ := h.fill_ok hclear
  refine ⟨t, ?_, hadv⟩
  have hahead : t.ahead = s.ahead := by simpa using hadv.ahead
  have hle : t.buffered ≤ t.ahead.length := buffered_le (s := t.steady) hadv.intact.sound
  simp only [atEnd, ht]
  congr 1
  rw [hahead] at hle
  cases hs : s.ahead with
  | nil =>
    rw [hs] at hle
    simpa using Nat.le_zero.mp hle
  | cons b rest =>
    have hne : t.buffered ≠ 0 := fun h0 => by rw [hend h0] at hs; cases hs
    simpa using hne

theorem Intact.atEnd_fault (h : s.Intact) {fault : DeviceFault}
    (hf : s.cursor.faultHere? = some fault) :
    ∃ t, atEnd s = .error (Error.ofFault fault) t ∧ Advances s t 0 := by
  obtain ⟨t, ht, hadv⟩ := h.fill_fault hf
  exact ⟨t, by simp only [atEnd, ht], hadv⟩

end

-- ---------------------------------------------------------------------------
-- Over a source that does not fail
-- ---------------------------------------------------------------------------

section
variable {s : InputStream} {count : Nat}

theorem Sound.bound_eq (h : s.Sound) : s.cursor.bound = s.source.content.size := by
  rw [ByteCursor.bound_of_no_fault (c := s.cursor) h.reliable.fault]
  simp [cursor]

theorem Sound.clear (h : s.Sound) : s.cursor.faultHere? = none := by
  simp only [ByteCursor.faultHere?, cursor, h.reliable.fault]

theorem Sound.shortage_eq (h : s.Sound) : s.cursor.shortage = .endOfStream := by
  simp only [ByteCursor.shortage, ByteCursor.faultAhead?, cursor, h.reliable.fault]

theorem take_ok (h : s.Sound) (hc : count ≤ s.ahead.length) :
    ∃ t, take count s = .ok (s.ahead.take count) t ∧
      ∃ u, Advances s u count ∧ t = { u with pos := s.pos + count } := by
  refine h.intact.take_ok ?_
  rw [length_ahead] at hc
  rw [h.bound_eq]
  omega

theorem take_short (h : s.Sound) (hc : s.ahead.length < count) :
    ∃ t, take count s = .error .endOfStream t ∧ Advances s t s.ahead.length := by
  rw [length_ahead] at hc ⊢
  rw [← h.bound_eq] at hc ⊢
  rw [← h.shortage_eq]
  exact h.intact.take_short (by omega) (by omega)

theorem atEnd_ok (h : s.Sound) : ∃ t, atEnd s = .ok s.ahead.isEmpty t ∧ Advances s t 0 :=
  h.intact.atEnd_ok h.clear

end

-- ---------------------------------------------------------------------------
-- Any device
-- ---------------------------------------------------------------------------

theorem length_le_of_readSome {count : Nat} {s s' : InputStream} {got : Bytes}
    (h : readSome count s = .ok got s') : got.length ≤ count := by
  unfold readSome at h
  split at h
  · dsimp only at h
    split at h
    · next bytes source hread =>
      cases h
      rw [Array.length_toList]
      exact Source.size_le_of_read hread
    · cases h
  · split at h
    · cases h
      rw [length_peek]
      exact Nat.min_le_left _ _
    · cases h

theorem length_of_gather {wanted : Nat} {found bytes : Bytes} {s s' : InputStream}
    (h : gather wanted found s = .ok bytes s') : bytes.length = found.length + wanted := by
  fun_induction gather wanted found s with
  | case1 =>
    cases h
    simp
  | case2 => cases h
  | case3 => cases h
  | case4 wanted found s hw got t ht hg ih =>
    have hle := length_le_of_readSome ht
    rw [ih h, List.reverseAux_eq, List.length_append, List.length_reverse]
    omega

/-- However the device behaves, a request that is met is met in full. -/
theorem length_of_take {count : Nat} {s s' : InputStream} {bytes : Bytes}
    (h : take count s = .ok bytes s') : bytes.length = count := by
  unfold take at h
  split at h
  · next hb =>
    cases h
    rw [length_peek]
    exact Nat.min_eq_left hb
  · split at h
    · next hgather =>
      cases h
      rw [length_of_gather hgather]
      exact Nat.zero_add _
    · cases h

/-- What a decoder makes of a stream it makes of some bytes. -/
theorem exists_runAll_of_exec {decoder : Decoder α} {s s' : InputStream} {value : α}
    (h : decoder.exec s = .ok value s') : ∃ bytes, decoder.runAll bytes = .ok value := by
  induction decoder generalizing s with
  | done v =>
    cases h
    exact ⟨[], rfl⟩
  | fail error => cases h
  | need count next ih =>
    simp only [Decoder.exec] at h
    split at h
    · next taken t htake =>
      obtain ⟨bytes, hbytes⟩ := ih _ h
      have hlength : taken.length = count := length_of_take htake
      refine ⟨taken ++ bytes, ?_⟩
      rw [Decoder.runAll_eq_ok, ← hlength, Decoder.run_need_append]
      exact Decoder.runAll_eq_ok.mp hbytes
    · cases h

end InputStream

instance : Lossless InputStream where
  Ahead s p bytes := s.Sound ∧ s.pos = p ∧ s.ahead = bytes
  pos_eq h := h.2.1
  take_ok := by
    rintro s _ _ count ⟨hs, rfl, rfl⟩ hc
    obtain ⟨_, ht, u, hadv, rfl⟩ := InputStream.take_ok hs hc
    exact ⟨_, ht, (hadv.sound hs).at _, rfl, hadv.ahead⟩
  take_short := by
    rintro s _ _ count ⟨hs, rfl, rfl⟩ hc
    obtain ⟨t, ht, hadv⟩ := InputStream.take_short hs hc
    exact ⟨t, ht, hadv.sound hs, hadv.pos, by rw [hadv.ahead, List.drop_length]⟩
  atEnd_ok := by
    rintro s _ _ ⟨hs, rfl, rfl⟩
    obtain ⟨t, ht, hadv⟩ := InputStream.atEnd_ok hs
    exact ⟨t, ht, hadv.sound hs, hadv.pos, by simpa using hadv.ahead⟩

/-- A stream that has just been opened has the source's content from its position on ahead. -/
theorem InputStream.ahead_open {source : Source} (h : source.Reliable) (bufferSize offset : Nat) :
    Lossless.Ahead (InputStream.open source bufferSize offset) offset
      (source.content.toList.drop source.pos) :=
  ⟨sound_open h bufferSize offset, rfl, rfl⟩

theorem Source.reliable_ofBytes (bytes : Bytes) : (ofBytes bytes).Reliable :=
  ⟨rfl, by simp [ofBytes]⟩

theorem InputStream.ahead_ofBytes (bytes : Bytes) (bufferSize offset : Nat) :
    Lossless.Ahead (InputStream.open (.ofBytes bytes) bufferSize offset) offset bytes := by
  simpa [Source.ofBytes] using ahead_open (Source.reliable_ofBytes bytes) bufferSize offset

end TypedStream
