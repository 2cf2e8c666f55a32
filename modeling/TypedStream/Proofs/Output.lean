import TypedStream.Output.Stream
import TypedStream.Run

/-!
# What an output stream has written

What has been written is what the sink took and what is pending. Every write puts its bytes behind
that, whatever the size of the buffer, or fails because the sink has no room for all of them
(`OutputStream.put_spec`); what the sink then holds is as much as it has room for. A sink without a
limit has room for everything, so there every write succeeds.
-/

namespace TypedStream

namespace Sink

/-- The sink holds no more than it has room for. -/
def Fits (sink : Sink) : Prop := ∀ limit, sink.limit = some limit → sink.bytes.length ≤ limit

/-- As much of a byte string, from its first byte on, as the sink has room for. -/
def keep (sink : Sink) (bytes : Bytes) : Bytes :=
  match sink.limit with
  | some limit => bytes.take limit
  | none => bytes

theorem fits_of_no_limit {sink : Sink} (h : sink.limit = none) : sink.Fits := by
  intro limit hlimit
  cases h.symm.trans hlimit

theorem keep_of_limit {sink : Sink} {limit : Nat} (h : sink.limit = some limit) (bytes : Bytes) :
    sink.keep bytes = bytes.take limit := by
  rw [keep, h]

theorem keep_congr {sink sink' : Sink} (h : sink'.limit = sink.limit) (bytes : Bytes) :
    sink'.keep bytes = sink.keep bytes := by
  rw [keep, keep, h]

theorem keep_bytes {sink : Sink} (h : sink.Fits) : sink.keep sink.bytes = sink.bytes := by
  cases hlimit : sink.limit with
  | none => rw [keep, hlimit]
  | some limit => rw [keep_of_limit hlimit, List.take_of_length_le (h limit hlimit)]

/-- A sink takes all of a write, or as much as it has room for. -/
theorem store_spec {sink : Sink} (h : sink.Fits) (data : Bytes) :
    (∃ sink', sink.store data = (sink', []) ∧ sink'.bytes = sink.bytes ++ data ∧
      sink'.limit = sink.limit ∧ sink'.Fits) ∨
    ∃ sink' refused limit, sink.store data = (sink', refused) ∧ refused ≠ [] ∧
      sink.limit = some limit ∧ sink'.limit = some limit ∧
      limit < (sink.bytes ++ data).length ∧ sink'.bytes = (sink.bytes ++ data).take limit := by
  have happend : (sink.held.append data).toList = sink.bytes ++ data := ByteLog.toList_append _ _
  unfold store
  cases hlimit : sink.limit with
  | none => exact .inl ⟨_, rfl, happend, rfl, fits_of_no_limit rfl⟩
  | some limit =>
    have hroom := h limit hlimit
    have hsize : sink.held.size = sink.bytes.length := sink.held.size_eq_length
    dsimp only
    by_cases hle : data.length ≤ limit - sink.held.size
    · rw [List.drop_eq_nil_iff.mpr hle, List.take_of_length_le hle]
      refine .inl ⟨_, rfl, happend, rfl, fun limit' hlimit' => ?_⟩
      obtain rfl : limit = limit' := Option.some.inj hlimit'
      show (sink.held.append data).toList.length ≤ limit
      rw [happend, List.length_append]
      omega
    · refine .inr ⟨_, _, limit, rfl, ?_, rfl, rfl, ?_, ?_⟩
      · exact fun hnil => hle (List.drop_eq_nil_iff.mp hnil)
      · rw [List.length_append]
        omega
      · rw [List.take_append, List.take_of_length_le hroom, ← hsize]
        exact ByteLog.toList_append _ _

end Sink

namespace OutputStream

/-- All that has been written, handed to the sink or not. -/
def written (s : OutputStream) : Bytes := s.sink.bytes ++ s.pending.toList

/-- `t` is `s` with `data` behind what has been written. -/
structure Extends (t s : OutputStream) (data : Bytes) : Prop where
  limit : t.sink.limit = none
  written : t.written = s.written ++ data
  pos : t.pos = s.pos + data.length

@[simp] theorem written_open (sink : Sink) (bufferSize offset : Nat) :
    (OutputStream.open sink bufferSize offset).written = sink.bytes := List.append_nil _

theorem Extends.refl {s : OutputStream} (h : s.sink.limit = none) : s.Extends s [] :=
  ⟨h, by simp, rfl⟩

theorem Extends.trans {s t u : OutputStream} {data more : Bytes} (h : t.Extends s data)
    (h' : u.Extends t more) : u.Extends s (data ++ more) := by
  refine ⟨h'.limit, ?_, ?_⟩
  · rw [h'.written, h.written, List.append_assoc]
  · rw [h'.pos, h.pos, List.length_append, Nat.add_assoc]

-- ---------------------------------------------------------------------------
-- Sinks with a limit
-- ---------------------------------------------------------------------------

/-- `t` is `s` with `data` behind what has been written. -/
structure Took (s t : OutputStream) (data : Bytes) : Prop where
  limit : t.sink.limit = s.sink.limit
  fits : t.sink.Fits
  written : t.written = s.written ++ data
  pos : t.pos = s.pos + data.length

/-- `t` is what `s` becomes when its sink has no room for all of `data`. -/
structure Overflowed (s t : OutputStream) (data : Bytes) (limit : Nat) : Prop where
  limit_before : s.sink.limit = some limit
  limit_after : t.sink.limit = some limit
  exceeds : limit < (s.written ++ data).length
  full : t.sink.bytes = (s.written ++ data).take limit

theorem Took.refl {s : OutputStream} (h : s.sink.Fits) : Took s s [] := ⟨rfl, h, by simp, rfl⟩

theorem Took.trans {s t u : OutputStream} {data more : Bytes} (h : Took s t data)
    (h' : Took t u more) : Took s u (data ++ more) := by
  refine ⟨h'.limit.trans h.limit, h'.fits, ?_, ?_⟩
  · rw [h'.written, h.written, List.append_assoc]
  · rw [h'.pos, h.pos, List.length_append, Nat.add_assoc]

theorem Took.extends {s t : OutputStream} {data : Bytes} (h : Took s t data)
    (hlimit : s.sink.limit = none) : t.Extends s data :=
  ⟨h.limit.trans hlimit, h.written, h.pos⟩

theorem Overflowed.after {s t u : OutputStream} {data more : Bytes} {limit : Nat}
    (h : Overflowed t u more limit) (htook : Took s t data) :
    Overflowed s u (data ++ more) limit := by
  have hwritten : t.written ++ more = s.written ++ (data ++ more) := by
    rw [htook.written, List.append_assoc]
  refine ⟨htook.limit.symm.trans h.limit_before, h.limit_after, ?_, ?_⟩
  · rw [← hwritten]
    exact h.exceeds
  · rw [← hwritten]
    exact h.full

/-- To a full sink it does not matter what is not even tried any more. -/
theorem Overflowed.append {s t : OutputStream} {data : Bytes} {limit : Nat}
    (h : Overflowed s t data limit) (more : Bytes) : Overflowed s t (data ++ more) limit := by
  have hover := h.exceeds
  refine ⟨h.limit_before, h.limit_after, ?_, ?_⟩
  · rw [← List.append_assoc, List.length_append]
    omega
  · rw [h.full, ← List.append_assoc, List.take_append_of_le_length (Nat.le_of_lt h.exceeds)]

theorem Overflowed.limited {s t : OutputStream} {data : Bytes} {limit : Nat}
    (h : Overflowed s t data limit) : s.sink.limit ≠ none := by
  rw [h.limit_before]
  exact Option.some_ne_none limit

section
variable {s : OutputStream}

theorem flush_spec (h : s.sink.Fits) :
    (∃ t, flush s = .ok () t ∧ Took s t [] ∧ t.pending = .empty ∧ t.capacity = s.capacity) ∨
    ∃ t limit, flush s = .error (.io .other) t ∧ Overflowed s t [] limit ∧ t.pos = s.pos := by
  unfold flush
  rcases Sink.store_spec h s.pending.toList with
    ⟨sink, hstore, hbytes, hlimit, hfits⟩ |
    ⟨sink, refused, limit, hstore, hrefused, hlimit, hlimit', hover, hbytes⟩
  · rw [hstore]
    refine .inl ⟨_, rfl, ⟨hlimit, hfits, ?_, rfl⟩, rfl, rfl⟩
    simp [written, hbytes]
  · rw [hstore]
    obtain ⟨b, rest, rfl⟩ := List.exists_cons_of_ne_nil hrefused
    refine .inr ⟨_, limit, rfl, ⟨hlimit, hlimit', ?_, ?_⟩, rfl⟩
    · rw [List.append_nil]
      exact hover
    · rw [List.append_nil]
      exact hbytes

theorem Took.emptied {t : OutputStream} (h : Took s t []) (hempty : t.pending = .empty) :
    t.sink.bytes = s.written := by
  have hwritten : t.sink.bytes ++ t.pending.toList = s.written ++ [] := h.written
  rwa [hempty, ByteLog.toList_empty, List.append_nil, List.append_nil] at hwritten

/-- Data goes past the buffer only if nothing is pending, or if there is none. -/
theorem enqueue_spec (h : s.sink.Fits) (data : Bytes)
    (hpast : s.capacity ≤ data.length → s.pending.toList = [] ∨ data = []) :
    (∃ t, (enqueue data >>= fun _ => modify fun s => { s with pos := s.pos + data.length }) s =
      .ok () t ∧ Took s t data) ∨
    ∃ t limit, (enqueue data >>= fun _ => modify fun s => { s with pos := s.pos + data.length }) s =
      .error (.io .other) t ∧ Overflowed s t data limit ∧ t.pos = s.pos := by
  by_cases hsmall : data.length < s.capacity
  · have hput : enqueue data s = .ok () { s with pending := s.pending.append data } :=
      if_pos hsmall
    refine .inl ⟨_, bind_ok.mpr ⟨(), _, hput, rfl⟩, rfl, h, ?_, rfl⟩
    simp [written]
  have hbehind := hpast (Nat.le_of_not_lt hsmall)
  rcases Sink.store_spec h data with
    ⟨sink, hstore, hbytes, hlimit, hfits⟩ |
    ⟨sink, refused, limit, hstore, hrefused, hlimit, hlimit', hover, hbytes⟩
  · have hput : enqueue data s = .ok () { s with sink } := by
      simp only [enqueue, if_neg hsmall, hstore]
    refine .inl ⟨_, bind_ok.mpr ⟨(), _, hput, rfl⟩, hlimit, hfits, ?_, rfl⟩
    rcases hbehind with hnil | rfl
    · simp [written, hbytes, hnil]
    · simp [written, hbytes]
  · obtain ⟨b, rest, rfl⟩ := List.exists_cons_of_ne_nil hrefused
    have hput : enqueue data s = .error (.io .other) { s with sink } := by
      simp only [enqueue, if_neg hsmall, hstore]
    have hwritten : s.written ++ data = s.sink.bytes ++ data := by
      rcases hbehind with hnil | rfl
      · simp [written, hnil]
      · have hroom := h limit hlimit
        rw [List.append_nil] at hover
        omega
    refine .inr ⟨_, limit, bind_error.mpr (.inl hput), ⟨hlimit, hlimit', ?_, ?_⟩, rfl⟩
    · rw [hwritten]
      exact hover
    · rw [hwritten]
      exact hbytes

/-- A write puts its data behind what has been written, or the sink has no room for it. The
position moves only with the first. -/
theorem put_spec (h : s.sink.Fits) (data : Bytes) :
    (∃ t, put data s = .ok () t ∧ Took s t data) ∨
    ∃ t limit, put data s = .error (.io .other) t ∧ Overflowed s t data limit ∧ t.pos = s.pos := by
  show (∃ t, (if s.capacity - s.pending.size < data.length then _ else _ : EStateM _ _ _) s = _ ∧ _)
    ∨ ∃ t limit, (if s.capacity - s.pending.size < data.length then _ else _ : EStateM _ _ _) s = _
      ∧ _
  split
  · rcases flush_spec h with ⟨t, ht, htook, hempty, -⟩ | ⟨t, limit, ht, hover, hpos⟩
    · have hpast : t.capacity ≤ data.length → t.pending.toList = [] ∨ data = [] :=
        fun _ => .inl (by rw [hempty]; rfl)
      rcases enqueue_spec htook.fits data hpast with
        ⟨u, hu, htook'⟩ | ⟨u, limit, hu, hover, hpos⟩
      · exact .inl ⟨u, bind_ok.mpr ⟨(), t, ht, hu⟩, htook.trans htook'⟩
      · exact .inr ⟨u, limit, bind_error.mpr (.inr ⟨(), t, ht, hu⟩), hover.after htook,
          hpos.trans htook.pos⟩
    · exact .inr ⟨t, limit, bind_error.mpr (.inl ht), hover.append data, hpos⟩
  · next hfits =>
    refine enqueue_spec h data fun hcap => ?_
    rw [s.pending.size_eq_length] at hfits
    have hsize : s.pending.toList.length = 0 ∨ data.length = 0 := by omega
    exact hsize.imp List.eq_nil_of_length_eq_zero List.eq_nil_of_length_eq_zero

/-- Of successive writes, those in front of the one that fails are done. -/
theorem putAll_spec (h : s.sink.Fits) (writes : List Bytes) :
    (∃ t, putAll writes s = .ok () t ∧ Took s t writes.flatten) ∨
    ∃ t limit done data rest, putAll writes s = .error (.io .other) t ∧
      Overflowed s t writes.flatten limit ∧ writes = done ++ data :: rest ∧
      t.pos = s.pos + done.flatten.length := by
  induction writes generalizing s with
  | nil => exact .inl ⟨s, rfl, .refl h⟩
  | cons data rest ih =>
    rcases put_spec h data with ⟨t, ht, htook⟩ | ⟨t, limit, ht, hover, hpos⟩
    · rcases ih htook.fits with
        ⟨u, hu, htook'⟩ | ⟨u, limit, done, data', rest', hu, hover, rfl, hpos⟩
      · exact .inl ⟨u, bind_ok.mpr ⟨(), t, ht, hu⟩, htook.trans htook'⟩
      · refine .inr ⟨u, limit, data :: done, data', rest',
          bind_error.mpr (.inr ⟨(), t, ht, hu⟩), hover.after htook, rfl, ?_⟩
        rw [hpos, htook.pos, List.flatten_cons, List.length_append, Nat.add_assoc]
    · exact .inr ⟨t, limit, [], data, rest, bind_error.mpr (.inl ht), hover.append _, rfl, hpos⟩

-- ---------------------------------------------------------------------------
-- Giving up
-- ---------------------------------------------------------------------------

theorem bytes_abandon (h : s.sink.Fits) : s.abandon.bytes = s.sink.keep s.written := by
  unfold abandon
  rcases Sink.store_spec h s.pending.toList with
    ⟨sink, hstore, hbytes, hlimit, hfits⟩ |
    ⟨sink, refused, limit, hstore, -, hlimit, -, hover, hbytes⟩
  · rw [hstore, written, ← hbytes, ← Sink.keep_congr hlimit, Sink.keep_bytes hfits]
  · rw [hstore, hbytes, Sink.keep_of_limit hlimit, written]

/-- A full sink takes nothing more. -/
theorem Overflowed.bytes_abandon {t : OutputStream} {data : Bytes} {limit : Nat}
    (h : Overflowed s t data limit) : t.abandon.bytes = s.sink.keep (s.written ++ data) := by
  have hlength : t.sink.bytes.length = limit := by
    rw [h.full, List.length_take, Nat.min_eq_left (Nat.le_of_lt h.exceeds)]
  have hfits : t.sink.Fits := by
    intro limit' hlimit'
    obtain rfl := Option.some.inj (h.limit_after.symm.trans hlimit')
    exact Nat.le_of_eq hlength
  have hfront : (t.sink.bytes ++ t.pending.toList).take limit = t.sink.bytes := by
    rw [← hlength, List.take_left]
  rw [OutputStream.bytes_abandon hfits, Sink.keep_of_limit h.limit_after,
    Sink.keep_of_limit h.limit_before, written, hfront, h.full]

theorem close_spec (h : s.sink.Fits) :
    (∃ sink, s.close = (.ok (), sink) ∧ sink.bytes = s.written ∧ sink.limit = s.sink.limit ∧
      sink.Fits) ∨
    ∃ sink limit, s.close = (.error (.io .other), sink) ∧ s.sink.limit = some limit ∧
      limit < s.written.length ∧ sink.bytes = s.sink.keep s.written := by
  rcases flush_spec h with ⟨t, ht, htook, hempty, -⟩ | ⟨t, limit, ht, hover, -⟩
  · exact .inl ⟨t.sink, by simp only [close, ht], htook.emptied hempty, htook.limit, htook.fits⟩
  · have hlong := hover.exceeds
    have habandon := hover.bytes_abandon
    rw [List.append_nil] at hlong habandon
    exact .inr ⟨t.abandon, limit, by simp only [close, ht], hover.limit_before, hlong, habandon⟩

/-- Whether a stream can be closed or not, the sink ends up with all it has room for. -/
theorem bytes_close (h : s.sink.Fits) : s.close.2.bytes = s.sink.keep s.written := by
  rcases close_spec h with
    ⟨sink, hclose, hbytes, hlimit, hfits⟩ | ⟨sink, limit, hclose, -, -, hbytes⟩
  · rw [hclose, ← hbytes, ← Sink.keep_congr hlimit, Sink.keep_bytes hfits]
  · rw [hclose, hbytes]

end

-- ---------------------------------------------------------------------------
-- Sinks without a limit
-- ---------------------------------------------------------------------------

section
variable {s : OutputStream}

theorem flush_ok (h : s.sink.limit = none) :
    ∃ t, flush s = .ok () t ∧ t.Extends s [] ∧ t.pending = .empty ∧ t.capacity = s.capacity := by
  rcases flush_spec (Sink.fits_of_no_limit h) with
    ⟨t, ht, htook, hempty, hcapacity⟩ | ⟨_, _, _, hover, -⟩
  · exact ⟨t, ht, htook.extends h, hempty, hcapacity⟩
  · exact absurd h hover.limited

theorem put_ok (h : s.sink.limit = none) (data : Bytes) :
    ∃ t, put data s = .ok () t ∧ t.Extends s data := by
  rcases put_spec (Sink.fits_of_no_limit h) data with ⟨t, ht, htook⟩ | ⟨_, _, _, hover, -⟩
  · exact ⟨t, ht, htook.extends h⟩
  · exact absurd h hover.limited

theorem putAll_ok (h : s.sink.limit = none) (writes : List Bytes) :
    ∃ t, putAll writes s = .ok () t ∧ t.Extends s writes.flatten := by
  rcases putAll_spec (Sink.fits_of_no_limit h) writes with
    ⟨t, ht, htook⟩ | ⟨_, _, _, _, _, _, hover, -⟩
  · exact ⟨t, ht, htook.extends h⟩
  · exact absurd h hover.limited

theorem close_ok (h : s.sink.limit = none) :
    ∃ sink, s.close = (.ok (), sink) ∧ sink.bytes = s.written := by
  rcases close_spec (Sink.fits_of_no_limit h) with
    ⟨sink, hclose, hbytes, -, -⟩ | ⟨_, limit, _, hlimit, -, -⟩
  · exact ⟨sink, hclose, hbytes⟩
  · cases h.symm.trans hlimit

end

end OutputStream

end TypedStream
