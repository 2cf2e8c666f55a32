import TypedStream.Proofs.Codec.Blocks
import TypedStream.Ty

/-!
# Runs and single reads

A run of values may take another way through the bytes than single reads: numbers of fixed size
are cut from a block, and a run of arrays is one run of their elements. It comes to the same
(`Ty.run_times`), whether or not the bytes were ever written by an encoder: cut in two, a run comes
to the two runs (`Ty.chains_codecIn`), and a run of one comes to a single read (`Ty.run_one`).

The elements of all the arrays have to be countable for that. A type with a layout is read by it,
in runs (`Ty.run_of_layout`) and value by value (`Ty.exact_of_layout`).
-/

namespace TypedStream

-- ---------------------------------------------------------------------------
-- Layouts
-- ---------------------------------------------------------------------------

namespace Layout

theorem split_found (layout : Layout α) (count : Nat) (block : Bytes) (found : List α) :
    layout.split count block found = layout.split count block [] ++ found := by
  induction count generalizing block found with
  | zero => rfl
  | succ count ih =>
    rw [split, split, ih, ih _ [_], List.append_assoc]
    rfl

theorem length_split (layout : Layout α) (count : Nat) (block : Bytes) :
    (layout.split count block []).length = count := by
  induction count generalizing block with
  | zero => rfl
  | succ count ih =>
    rw [split, split_found, List.length_append, ih]
    rfl

/-- The values at the front of a block. -/
def values (layout : Layout α) (count : Nat) (block : Bytes) : List α :=
  (layout.split count block []).reverse

theorem values_zero (layout : Layout α) (block : Bytes) : layout.values 0 block = [] := rfl

theorem values_succ (layout : Layout α) (count : Nat) (block : Bytes) :
    layout.values (count + 1) block =
      layout.ofImage (block.take layout.size) :: layout.values count (block.drop layout.size) := by
  rw [values, split, split_found, List.reverse_append]
  rfl

theorem length_values (layout : Layout α) (count : Nat) (block : Bytes) :
    (layout.values count block).length = count := by
  rw [values, List.length_reverse, length_split]

theorem values_add (layout : Layout α) (m n : Nat) (block : Bytes) :
    layout.values (m + n) block =
      layout.values m block ++ layout.values n (block.drop (m * layout.size)) := by
  induction m generalizing block with
  | zero => simp [values_zero]
  | succ m ih =>
    rw [Nat.add_right_comm, values_succ, values_succ, ih, List.drop_drop, List.cons_append,
      Nat.succ_mul, Nat.add_comm layout.size]

/-- Only the bytes of the values matter. -/
theorem values_take (layout : Layout α) {count length : Nat} {block : Bytes}
    (h : count * layout.size ≤ length) :
    layout.values count (block.take length) = layout.values count block := by
  induction count generalizing length block with
  | zero => rfl
  | succ count ih =>
    rw [Nat.succ_mul] at h
    rw [values_succ, values_succ, List.take_take, Nat.min_eq_left (by omega), List.drop_take,
      ih (by omega)]

theorem run_collect_eq (layout : Layout α) (count : Nat) (found : List α) (bytes : Bytes) :
    (layout.collect count found).run bytes =
      if count * layout.size ≤ bytes.length then
        .ok (found.reverse ++ layout.values count bytes, bytes.drop (count * layout.size))
      else .error .endOfStream := by
  -- Each request takes up at least one value, so the induction is on the number of values.
  induction count using Nat.strongRecOn generalizing found bytes with
  | ind count ih =>
    unfold collect
    split
    · next h0 =>
      subst h0
      simp [values_zero]
    next h0 =>
    have hchunk : 0 < layout.perChunk := Nat.lt_of_lt_of_le Nat.one_pos (Nat.le_max_left _ _)
    obtain ⟨now, hnow⟩ : ∃ now, now = min count layout.perChunk := ⟨_, rfl⟩
    obtain ⟨later, rfl⟩ : ∃ later, count = now + later := ⟨count - now, by omega⟩
    rw [← hnow]
    dsimp only
    rw [Decoder.run_need, Nat.add_sub_cancel_left, ih later (by omega), Nat.add_mul]
    by_cases hfront : now * layout.size ≤ bytes.length
    · rw [if_pos hfront, List.length_drop, List.drop_drop]
      by_cases hback : later * layout.size ≤ bytes.length - now * layout.size
      · rw [if_pos hback, if_pos (by omega), values_add, split_found, List.reverse_append,
          List.append_assoc]
        congr 4
        exact values_take layout (Nat.le_refl _)
      · rw [if_neg hback, if_neg (by omega)]
    · rw [if_neg hfront, if_neg (by omega)]

/-- The chunks do not show: a run takes its bytes, or there are too few of them. -/
theorem run_eq (layout : Layout α) (count : Nat) (bytes : Bytes) :
    (layout.run count).run bytes =
      if count * layout.size ≤ bytes.length then
        .ok (layout.values count bytes, bytes.drop (count * layout.size))
      else .error .endOfStream :=
  layout.run_collect_eq count [] bytes

theorem run_add (layout : Layout α) (m n : Nat) (bytes : Bytes) :
    (layout.run (m + n)).run bytes =
      (do return (← layout.run m) ++ (← layout.run n)).run bytes := by
  rw [run_eq, Decoder.run_bind, run_eq, Nat.add_mul]
  by_cases hm : m * layout.size ≤ bytes.length
  · rw [if_pos hm]
    dsimp only
    rw [Decoder.run_bind, run_eq, List.length_drop]
    by_cases hn : n * layout.size ≤ bytes.length - m * layout.size
    · rw [if_pos hn, if_pos (by omega), values_add, List.drop_drop]
      rfl
    · rw [if_neg hn, if_neg (by omega)]
  · rw [if_neg hm, if_neg (by omega)]

theorem values_xmap (layout : Layout α) (f : α → β) (g : β → α) (count : Nat) (block : Bytes) :
    (layout.xmap f g).values count block = (layout.values count block).map f := by
  induction count generalizing block with
  | zero => rfl
  | succ count ih =>
    rw [values_succ, values_succ, List.map_cons, ← ih]
    rfl

theorem run_xmap (layout : Layout α) (f : α → β) (g : β → α) (count : Nat) (bytes : Bytes) :
    (List.map f <$> layout.run count).run bytes = ((layout.xmap f g).run count).run bytes := by
  rw [Decoder.run_map_ite (layout.run_eq count bytes), run_eq, values_xmap]
  rfl

/-- The decoder reads one value of the layout, or finds too few bytes for it. -/
def Exact (layout : Layout α) (read : Decoder α) : Prop :=
  ∀ bytes, read.run bytes =
    if layout.size ≤ bytes.length then
      .ok (layout.ofImage (bytes.take layout.size), bytes.drop layout.size)
    else .error .endOfStream

theorem exact_need (ofImage : Bytes → α) (image : α → Bytes) (size : Nat) :
    Exact ⟨size, image, ofImage⟩ (.need size fun bytes => .done (ofImage bytes)) :=
  Decoder.run_need size _

theorem exact_nil : (nil : Layout (List α)).Exact (pure []) :=
  fun _ => (if_pos (Nat.zero_le _)).symm

section
variable {layout : Layout α} {read : Decoder α}

theorem Exact.xmap (h : layout.Exact read) (f : α → β) (g : β → α) :
    (layout.xmap f g).Exact (f <$> read) :=
  fun bytes => Decoder.run_map_ite (h bytes) f

theorem Exact.cons {tail : Layout (List α)} {readTail : Decoder (List α)} (h : layout.Exact read)
    (htail : tail.Exact readTail) :
    (layout.cons tail).Exact (do return (← read) :: (← readTail)) := by
  intro bytes
  have himage : (layout.cons tail).ofImage (bytes.take (layout.size + tail.size)) =
      layout.ofImage (bytes.take layout.size) ::
        tail.ofImage ((bytes.drop layout.size).take tail.size) := by
    show layout.ofImage (List.take _ (bytes.take (layout.size + tail.size))) ::
      tail.ofImage (List.drop _ (bytes.take (layout.size + tail.size))) = _
    rw [List.take_take, Nat.min_eq_left (Nat.le_add_right _ _), List.drop_take,
      Nat.add_sub_cancel_left]
  show _ = if layout.size + tail.size ≤ bytes.length then
    Except.ok ((layout.cons tail).ofImage (bytes.take (layout.size + tail.size)),
      bytes.drop (layout.size + tail.size)) else _
  rw [himage, Decoder.run_bind, h]
  by_cases hhead : layout.size ≤ bytes.length
  · rw [if_pos hhead]
    dsimp only
    rw [Decoder.run_bind, htail, List.length_drop, List.drop_drop]
    by_cases hrest : tail.size ≤ bytes.length - layout.size
    · rw [if_pos hrest, if_pos (by omega)]
      rfl
    · rw [if_neg hrest, if_neg (by omega)]
  · rw [if_neg hhead, if_neg (by omega)]

theorem Exact.run_one (h : layout.Exact read) (bytes : Bytes) :
    (layout.run 1).run bytes = (([·]) <$> read).run bytes := by
  rw [Decoder.run_map_ite (h bytes), run_eq, Nat.one_mul]
  rfl

end

end Layout

-- ---------------------------------------------------------------------------
-- Runs
-- ---------------------------------------------------------------------------

namespace Codec

/-- A run of up to `limit` values comes to what shorter runs come to one after the other: their
values, or the error of the first that fails. -/
structure Chains (codec : Codec α) (limit : Nat) : Prop where
  zero : ∀ bytes, (codec.readRun 0).run bytes = .ok ([], bytes)
  append : m + n ≤ limit → ∀ bytes, (codec.readRun (m + n)).run bytes =
    (do return (← codec.readRun m) ++ (← codec.readRun n)).run bytes
  length : (codec.readRun n).run bytes = .ok (values, rest) → values.length = n

/-- Where a run of one comes to a single read, runs come to single reads. -/
theorem Chains.run_times {codec : Codec α} {limit count : Nat} (h : codec.Chains limit)
    (hone : ∀ bytes, (codec.readRun 1).run bytes = (([·]) <$> codec.read).run bytes)
    (hle : count ≤ limit) (bytes : Bytes) :
    (codec.readRun count).run bytes = (codec.read.times count).run bytes := by
  induction count generalizing bytes with
  | zero => exact h.zero bytes
  | succ count ih =>
    rw [Nat.add_comm, h.append (by omega), Decoder.run_times_add]
    refine Decoder.run_bind_congr ((hone bytes).trans (Decoder.run_times_one _ bytes).symm) ?_
    exact fun _ rest => Decoder.run_bind_congr (ih (by omega) rest) fun _ _ => rfl

theorem chains_single (writes : α → List Bytes) (read : Decoder α) (limit : Nat) :
    (single writes read).Chains limit where
  zero := Decoder.run_times_zero read
  append _ := Decoder.run_times_add read _ _
  length := Decoder.length_of_times

theorem run_one_single (writes : α → List Bytes) (read : Decoder α) (bytes : Bytes) :
    ((single writes read).readRun 1).run bytes = (([·]) <$> (single writes read).read).run bytes :=
  Decoder.run_times_one read bytes

theorem chains_bulk (codec : Codec α) (layout : Layout α) (limit : Nat) :
    (codec.bulk layout).Chains limit where
  zero bytes := by
    show (layout.run 0).run bytes = _
    rw [layout.run_eq, Nat.zero_mul, if_pos (Nat.zero_le _)]
    rfl
  append _ := layout.run_add _ _
  length {n bytes values rest} hrun := by
    replace hrun : (layout.run n).run bytes = _ := hrun
    rw [layout.run_eq] at hrun
    split at hrun
    · cases hrun
      exact layout.length_values n bytes
    · cases hrun

theorem run_one_xmap {codec : Codec α}
    (hone : ∀ bytes, (codec.readRun 1).run bytes = (([·]) <$> codec.read).run bytes) (f : α → β)
    (g : β → α) (bytes : Bytes) :
    ((codec.xmap f g).readRun 1).run bytes = (([·]) <$> (codec.xmap f g).read).run bytes := by
  show (List.map f <$> codec.readRun 1).run bytes = (([·]) <$> f <$> codec.read).run bytes
  rw [Decoder.run_map, hone, Decoder.run_map, Decoder.run_map, Decoder.run_map]
  cases codec.read.run bytes <;> rfl

theorem Chains.xmap {codec : Codec α} {limit : Nat} (h : codec.Chains limit) (f : α → β)
    (g : β → α) : (codec.xmap f g).Chains limit where
  zero bytes := Decoder.run_map_ok (h.zero bytes)
  append {m n} hle bytes := by
    show (List.map f <$> codec.readRun (m + n)).run bytes =
      (do return (← List.map f <$> codec.readRun m) ++ (← List.map f <$> codec.readRun n)).run bytes
    rw [Decoder.run_map, h.append hle, Decoder.run_bind, Decoder.run_bind, Decoder.run_map]
    cases (codec.readRun m).run bytes with
    | error error => rfl
    | ok first =>
      dsimp only
      rw [Decoder.run_bind, Decoder.run_bind, Decoder.run_map]
      cases (codec.readRun n).run first.2 <;> simp
  length {n bytes values rest} hrun := by
    obtain ⟨vs, _, hvs, hdone⟩ := Decoder.run_bind_iff.mp hrun
    cases hdone
    rw [List.length_map, h.length hvs]

-- ---------------------------------------------------------------------------
-- Arrays
-- ---------------------------------------------------------------------------

theorem groups_found (k count : Nat) (values : List α) (found : List (List α)) :
    groups k count values found = found.reverse ++ groups k count values [] := by
  induction count generalizing values found with
  | zero => simp [groups]
  | succ count ih =>
    rw [groups, groups, ih, ih _ [_], List.reverse_cons, List.append_assoc]
    rfl

theorem groups_succ (k count : Nat) (values : List α) :
    groups k (count + 1) values [] = values.take k :: groups k count (values.drop k) [] :=
  groups_found k count _ _

theorem length_groups (k count : Nat) (values : List α) :
    (groups k count values []).length = count := by
  induction count generalizing values with
  | zero => rfl
  | succ count ih => rw [groups_succ, List.length_cons, ih]

theorem groups_append {k m : Nat} {values : List α} (h : values.length = m * k) (n : Nat)
    (more : List α) :
    groups k (m + n) (values ++ more) [] = groups k m values [] ++ groups k n more [] := by
  induction m generalizing values with
  | zero =>
    rw [Nat.zero_mul] at h
    rw [List.eq_nil_of_length_eq_zero h, Nat.zero_add]
    rfl
  | succ m ih =>
    rw [Nat.succ_mul] at h
    rw [Nat.add_right_comm, groups_succ, groups_succ, List.cons_append,
      List.take_append_of_le_length (by omega), List.drop_append_of_le_length (by omega),
      ih (by rw [List.length_drop]; omega)]

theorem run_array {codec : Codec α} {k count : Nat} (hcount : count * k < sizeLimit)
    (bytes : Bytes) :
    ((codec.array k).readRun count).run bytes =
      ((groups k count · []) <$> codec.readRun (count * k)).run bytes := by
  show (if count * k < sizeLimit then _ else _ : Decoder _).run bytes = _
  rw [if_pos hcount]

/-- A run of arrays that succeeds is a run of their values, cut up. -/
theorem run_array_ok {codec : Codec α} {k count : Nat} {bytes rest : Bytes} {arrays : List (List α)}
    (h : ((codec.array k).readRun count).run bytes = .ok (arrays, rest)) :
    count * k < sizeLimit ∧
      ∃ values, (codec.readRun (count * k)).run bytes = .ok (values, rest) ∧
        arrays = groups k count values [] := by
  replace h : (if count * k < sizeLimit then _ else _ : Decoder _).run bytes = _ := h
  split at h
  · next hcount =>
    obtain ⟨values, _, hvalues, hdone⟩ := Decoder.run_bind_iff.mp h
    cases hdone
    exact ⟨hcount, values, hvalues, rfl⟩
  · cases h

theorem Chains.array {codec : Codec α} {k limit : Nat} (h : codec.Chains (limit * k))
    (hlimit : limit * k < sizeLimit) : (codec.array k).Chains limit where
  zero bytes := by
    have hzero := h.zero bytes
    rw [← Nat.zero_mul k] at hzero
    rw [run_array (by rw [Nat.zero_mul]; exact Nat.zero_lt_of_lt hlimit)]
    exact Decoder.run_map_ok hzero
  append {m n} hle bytes := by
    have hle' := Nat.mul_le_mul_right k hle
    have hcount := Nat.lt_of_le_of_lt hle' hlimit
    rw [run_array hcount]
    rw [Nat.add_mul] at hle' hcount
    rw [Decoder.run_map, Nat.add_mul, h.append hle', Decoder.run_bind, Decoder.run_bind,
      run_array (by omega), Decoder.run_map]
    cases hfirst : (codec.readRun (m * k)).run bytes with
    | error error => rfl
    | ok first =>
      dsimp only
      rw [Decoder.run_bind, Decoder.run_bind, run_array (by omega), Decoder.run_map]
      cases (codec.readRun (n * k)).run first.2 with
      | error error => rfl
      | ok second =>
        dsimp only [Decoder.run_pure]
        rw [groups_append (h.length hfirst)]
  length hrun := by
    obtain ⟨-, values, -, rfl⟩ := run_array_ok hrun
    exact length_groups _ _ _

theorem Chains.run_one_array {codec : Codec α} {k limit : Nat} (h : codec.Chains limit)
    (hk : k < sizeLimit) (bytes : Bytes) :
    ((codec.array k).readRun 1).run bytes = (([·]) <$> (codec.array k).read).run bytes := by
  show _ = (([·]) <$> codec.readRun k).run bytes
  rw [run_array (by rwa [Nat.one_mul]), Nat.one_mul, Decoder.run_map, Decoder.run_map]
  cases hrun : (codec.readRun k).run bytes with
  | error error => rfl
  | ok found =>
    dsimp only
    rw [groups_succ, List.take_of_length_le (Nat.le_of_eq (h.length hrun))]
    rfl

theorem values_array (layout : Layout α) (k count : Nat) (bytes : Bytes) :
    (layout.array k).values count bytes = groups k count (layout.values (count * k) bytes) [] := by
  induction count generalizing bytes with
  | zero => rfl
  | succ count ih =>
    have hlength := layout.length_values k bytes
    rw [Layout.values_succ, ih, groups_succ, Nat.succ_mul, Nat.add_comm (count * k),
      layout.values_add, List.take_left' hlength, List.drop_left' hlength]
    congr 1
    exact layout.values_take (Nat.le_refl _)

theorem run_layout_array (layout : Layout α) (k count : Nat) (bytes : Bytes) :
    ((groups k count · []) <$> layout.run (count * k)).run bytes =
      ((layout.array k).run count).run bytes := by
  rw [Decoder.run_map_ite (layout.run_eq _ bytes), Layout.run_eq, values_array, Nat.mul_assoc]
  rfl

end Codec

-- ---------------------------------------------------------------------------
-- Types
-- ---------------------------------------------------------------------------

/-- The elements of `count` values, in the arrays that the values are, can be counted. Of a type
that is itself, or arrays of itself, there are no values. -/
def Ty.Countable : Ty → Nat → Prop
  | .array item length, count =>
    count * length < sizeLimit ∧ item.Countable (count * length)
  | .fix body, count => body.Countable count
  | .self, _ => False
  | _, _ => True

mutual
/-- A single value of the type is never refused for the elements of its arrays. -/
def Ty.Whole : Ty → Prop
  | .array item length => item.Countable length
  | .record _ true fields => fields.Whole
  | _ => True
def Fields.Whole : Fields → Prop
  | .nil => True
  | .cons _ type rest => type.Whole ∧ rest.Whole
end

section
variable {self : Unit → Codec Value}

/-- A type with a layout is read by it in runs. -/
theorem Ty.run_of_layout : (type : Ty) → {layout : Layout Value} → {count : Nat} →
    type.layout? = some layout → type.Countable count → ∀ bytes,
      ((type.codecIn self).readRun count).run bytes = (layout.run count).run bytes
  | .int .u8, _, count, rfl, _ => (Layout.octet false).run_xmap Value.int Value.toInt count
  | .int .i8, _, count, rfl, _ => (Layout.octet true).run_xmap Value.int Value.toInt count
  | .float precision, _, count, rfl, _ =>
    (Layout.word precision.width).run_xmap Value.float Value.toBits count
  | .complex _, _, _, rfl, _ => fun _ => rfl
  | .array item length, layout, count, h, hcount => by
    simp only [Ty.layout?, Option.map_eq_some_iff] at h
    obtain ⟨inner, hinner, rfl⟩ := h
    intro bytes
    rw [← Layout.run_xmap, Decoder.run_map, ← Codec.run_layout_array, Decoder.run_map,
      ← Ty.run_of_layout item hinner hcount.2]
    show (List.map Value.list <$> (Codec.array length (item.codecIn self)).readRun count).run _ = _
    rw [Decoder.run_map, Codec.run_array hcount.1, Decoder.run_map]
  | .record name true fields, layout, _, h, _ => by
    simp only [Ty.codecIn, h]
    exact fun _ => rfl

theorem Ty.countable_of_run : (type : Ty) → {layout : Layout Value} → {count : Nat} →
    type.layout? = some layout → ∀ {bytes found},
      ((type.codecIn self).readRun count).run bytes = .ok found → type.Countable count
  | .int _, _, _, _, _, _, _ => trivial
  | .float _, _, _, _, _, _, _ => trivial
  | .complex _, _, _, _, _, _, _ => trivial
  | .array item length, layout, count, h, bytes, found, hrun => by
    simp only [Ty.layout?, Option.map_eq_some_iff] at h
    obtain ⟨inner, hinner, rfl⟩ := h
    obtain ⟨arrays, _, harrays, -⟩ := Decoder.run_bind_iff.mp hrun
    obtain ⟨hcount, values, hvalues, -⟩ := Codec.run_array_ok harrays
    exact ⟨hcount, Ty.countable_of_run item hinner hvalues⟩
  | .record .., _, _, _, _, _, _ => trivial

mutual
theorem Ty.whole_of_read : (type : Ty) → {layout : Layout Value} → type.layout? = some layout →
    ∀ {bytes found}, (type.codecIn self).read.run bytes = .ok found → type.Whole
  | .int _, _, _, _, _, _ => trivial
  | .float _, _, _, _, _, _ => trivial
  | .complex _, _, _, _, _, _ => trivial
  | .array item length, layout, h, bytes, found, hrun => by
    simp only [Ty.layout?, Option.map_eq_some_iff] at h
    obtain ⟨inner, hinner, rfl⟩ := h
    obtain ⟨values, _, hvalues, -⟩ := Decoder.run_bind_iff.mp hrun
    exact Ty.countable_of_run item hinner hvalues
  | .record name true fields, layout, h, bytes, found, hrun => by
    have hlayout := h
    simp only [Ty.layout?, Option.map_eq_some_iff] at h
    obtain ⟨inner, hinner, rfl⟩ := h
    simp only [Ty.codecIn, hlayout] at hrun
    obtain ⟨values, _, hvalues, -⟩ := Decoder.run_bind_iff.mp hrun
    exact Fields.whole_of_read fields hinner hvalues
theorem Fields.whole_of_read : (fields : Fields) → {layout : Layout (List Value)} →
    fields.layout? = some layout → ∀ {bytes found},
      (fields.codecIn self).read.run bytes = .ok found → fields.Whole
  | .nil, _, _, _, _, _ => trivial
  | .cons _ type rest, layout, h, bytes, found, hrun => by
    simp only [Fields.layout?] at h
    split at h
    · next head tail hhead htail =>
      obtain ⟨value, after, hvalue, hrun⟩ := Decoder.run_bind_iff.mp hrun
      obtain ⟨values, _, hvalues, -⟩ := Decoder.run_bind_iff.mp hrun
      exact ⟨Ty.whole_of_read type hhead hvalue, Fields.whole_of_read rest htail hvalues⟩
    · cases h
end

theorem exact_floatCodec (precision : Precision) :
    (floatLayout precision).Exact (floatCodec precision).read :=
  (Layout.exact_need ofLittleEndian (littleEndian precision.width) precision.width).xmap _ _

theorem exact_complexCodec (precision : Precision) :
    (complexLayout precision).Exact (complexCodec precision).read :=
  ((exact_floatCodec precision).cons
    ((exact_floatCodec precision).cons Layout.exact_nil)).xmap _ _

theorem exact_octet (signed : Bool) :
    (Layout.octet signed).Exact ((Layout.octet signed).ofImage <$> Decoder.bytes 1) :=
  Layout.exact_need _ (Layout.octet signed).image 1

mutual
/-- A type with a layout is read by it, value by value too. -/
theorem Ty.exact_of_layout : (type : Ty) → {layout : Layout Value} →
    type.layout? = some layout → type.Whole → layout.Exact (type.codecIn self).read
  | .int .u8, _, rfl, _ => (exact_octet false).xmap _ _
  | .int .i8, _, rfl, _ => (exact_octet true).xmap _ _
  | .float precision, _, rfl, _ => exact_floatCodec precision
  | .complex precision, _, rfl, _ => exact_complexCodec precision
  | .array item length, layout, h, hwhole => by
    simp only [Ty.layout?, Option.map_eq_some_iff] at h
    obtain ⟨inner, hinner, rfl⟩ := h
    refine Layout.Exact.xmap (fun bytes => ?_) Value.list Value.toItems
    show ((item.codecIn self).readRun length).run bytes = _
    rw [Ty.run_of_layout item hinner hwhole, inner.run_eq]
    show _ = if length * inner.size ≤ bytes.length then
      Except.ok (inner.values length (bytes.take (length * inner.size)), _) else _
    rw [inner.values_take (Nat.le_refl _)]
    rfl
  | .record name true fields, layout, h, hwhole => by
    have hlayout := h
    simp only [Ty.layout?, Option.map_eq_some_iff] at h
    obtain ⟨inner, hinner, rfl⟩ := h
    simp only [Ty.codecIn, hlayout]
    exact (Fields.exact_of_layout fields hinner hwhole).xmap _ _
theorem Fields.exact_of_layout : (fields : Fields) → {layout : Layout (List Value)} →
    fields.layout? = some layout → fields.Whole → layout.Exact (fields.codecIn self).read
  | .nil, _, rfl, _ => Layout.exact_nil
  | .cons _ type rest, layout, h, hwhole => by
    simp only [Fields.layout?] at h
    split at h
    · next head tail hhead htail =>
      cases h
      exact (Ty.exact_of_layout type hhead hwhole.1).cons
        (Fields.exact_of_layout rest htail hwhole.2)
    · cases h
end

end

-- ---------------------------------------------------------------------------
-- Every type
-- ---------------------------------------------------------------------------

open Codec (chains_single chains_bulk run_one_single run_one_xmap)

theorem Codec.chains_int (kind : IntKind) (limit : Nat) : (Codec.int kind).Chains limit := by
  unfold Codec.int
  split
  · exact chains_bulk _ _ limit
  · unfold Codec.intSingle
    split <;> exact chains_single _ _ limit

theorem Ty.chains_codecIn {self : Unit → Codec Value} :
    (type : Ty) → {limit : Nat} → type.Countable limit → (type.codecIn self).Chains limit
  | .bool, limit, _ | .string, limit, _ | .unit, limit, _ | .option _, limit, _ | .list _, limit, _
  | .map _ _, limit, _ | .hashMap _ _ _, limit, _ | .grid _ _, limit, _ | .rankedGrid _, limit, _
  | .union _ _, limit, _ | .enum _ _ _, limit, _ => (chains_single _ _ limit).xmap _ _
  | .wrapped _, limit, _ => chains_single _ _ limit
  | .int kind, limit, _ => (Codec.chains_int kind limit).xmap _ _
  | .float _, limit, _ => (chains_bulk _ _ limit).xmap _ _
  | .complex _, limit, _ => chains_bulk _ _ limit
  | .array item _, _, h => ((Ty.chains_codecIn item h.2).array h.1).xmap _ _
  | .record name packed fields, limit, _ => by
    simp only [Ty.codecIn]
    split
    · exact chains_bulk _ _ limit
    · exact chains_single _ _ limit
  | .fix body, limit, h => by
    obtain ⟨depth, hdepth⟩ : ∃ depth, sizeLimit = depth + 1 := ⟨sizeLimit - 1, by decide⟩
    simp only [Ty.codecIn, Codec.fix, hdepth]
    exact Ty.chains_codecIn body h

/-- What single reads ask of a type over what runs do. Only packed records ask anything: a run of
them is one block whatever the fields are, but a single one is read field by field. -/
def Ty.FieldsWhole : Ty → Prop
  | .record _ true fields => fields.layout?.isSome → fields.Whole
  | .fix body => body.FieldsWhole
  | _ => True

theorem Ty.exact_of_fieldsWhole {self : Unit → Codec Value} {name : String} {packed : Bool}
    {fields : Fields} {layout : Layout Value} (h : (Ty.record name packed fields).FieldsWhole)
    (hlayout : (Ty.record name packed fields).layout? = some layout) :
    layout.Exact ((Ty.record name packed fields).codecIn self).read := by
  cases packed with
  | false => cases hlayout
  | true =>
    refine Ty.exact_of_layout _ hlayout (h ?_)
    obtain ⟨inner, hinner, -⟩ := Option.map_eq_some_iff.mp hlayout
    rw [hinner]
    rfl

theorem Codec.run_one_int (kind : IntKind) (bytes : Bytes) :
    ((Codec.int kind).readRun 1).run bytes = (([·]) <$> (Codec.int kind).read).run bytes := by
  unfold Codec.int
  split
  · next hform =>
    refine Layout.Exact.run_one ?_ bytes
    simp only [Codec.intSingle, hform]
    exact exact_octet _
  · unfold Codec.intSingle
    split <;> exact run_one_single _ _ bytes

theorem Ty.run_one {self : Unit → Codec Value} : (type : Ty) → type.Countable 1 →
    type.FieldsWhole → ∀ bytes,
      ((type.codecIn self).readRun 1).run bytes = (([·]) <$> (type.codecIn self).read).run bytes
  | .bool, _, _ | .string, _, _ | .unit, _, _ | .option _, _, _ | .list _, _, _ | .map _ _, _, _
  | .hashMap _ _ _, _, _ | .grid _ _, _, _ | .rankedGrid _, _, _ | .union _ _, _, _
  | .enum _ _ _, _, _ => run_one_xmap (run_one_single _ _) _ _
  | .wrapped _, _, _ => run_one_single _ _
  | .int kind, _, _ => run_one_xmap (Codec.run_one_int kind) _ _
  | .float precision, _, _ =>
    run_one_xmap (Layout.Exact.run_one (Layout.exact_need _ _ precision.width)) _ _
  | .complex precision, _, _ => (exact_complexCodec precision).run_one
  | .array item length, h, _ => by
    rw [Ty.Countable, Nat.one_mul] at h
    exact run_one_xmap ((Ty.chains_codecIn item h.2).run_one_array h.1) _ _
  | .record name packed fields, _, hwhole => by
    have hexact := @Ty.exact_of_fieldsWhole self name packed fields
    simp only [Ty.codecIn] at hexact ⊢
    split
    · next layout hlayout =>
      simp only [hlayout] at hexact
      exact (hexact hwhole rfl).run_one
    · exact run_one_single _ _
  | .fix body, h, hwhole => by
    obtain ⟨depth, hdepth⟩ : ∃ depth, sizeLimit = depth + 1 := ⟨sizeLimit - 1, by decide⟩
    simp only [Ty.codecIn, Codec.fix, hdepth]
    exact Ty.run_one body h hwhole

theorem Ty.fieldsWhole_of_read {self : Unit → Codec Value} : (type : Ty) → ∀ {bytes found},
    (type.codecIn self).read.run bytes = .ok found → type.FieldsWhole
  | .record name true fields, _, _, hrun => by
    intro hsome
    obtain ⟨inner, hinner⟩ := Option.isSome_iff_exists.mp hsome
    exact Ty.whole_of_read (.record name true fields)
      (Option.map_eq_some_iff.mpr ⟨inner, hinner, rfl⟩) hrun
  | .fix body, _, _, hrun => by
    obtain ⟨depth, hdepth⟩ : ∃ depth, sizeLimit = depth + 1 := ⟨sizeLimit - 1, by decide⟩
    simp only [Ty.codecIn, Codec.fix, hdepth] at hrun
    exact Ty.fieldsWhole_of_read body hrun
  | .record _ false _, _, _, _ => trivial
  | .bool, _, _, _ | .string, _, _, _ | .unit, _, _, _ | .option _, _, _, _ | .list _, _, _, _
  | .map _ _, _, _, _ | .hashMap _ _ _, _, _, _ | .grid _ _, _, _, _ | .rankedGrid _, _, _, _
  | .union _ _, _, _, _ | .enum _ _ _, _, _, _ | .wrapped _, _, _, _ | .int _, _, _, _
  | .float _, _, _, _ | .complex _, _, _, _ | .array _ _, _, _, _ | .self, _, _, _ => trivial

theorem Ty.Countable.mono {type : Ty} {m n : Nat} (h : type.Countable n) (hle : m ≤ n) :
    type.Countable m := by
  cases type with
  | array item length =>
    obtain ⟨hlimit, hitem⟩ := h
    have hmul := Nat.mul_le_mul_right length hle
    exact ⟨Nat.lt_of_le_of_lt hmul hlimit, Ty.Countable.mono hitem hmul⟩
  | fix body => exact @Ty.Countable.mono body _ _ h hle
  | self => exact h
  | _ => trivial

/-- A run comes to as many single reads. -/
theorem Ty.run_times {type : Ty} {count : Nat} (h : type.Countable count)
    (hwhole : type.FieldsWhole) (bytes : Bytes) :
    (type.codec.readRun count).run bytes = (type.codec.read.times count).run bytes := by
  cases count with
  | zero => exact (Ty.chains_codecIn type h).zero bytes
  | succ count =>
    have hone : type.Countable 1 := h.mono (Nat.succ_le_succ (Nat.zero_le count))
    exact (Ty.chains_codecIn type h).run_times (Ty.run_one type hone hwhole) (Nat.le_refl _) bytes

/-- Where single values of a type are read, they are read as a run. -/
theorem Ty.run_of_times {type : Ty} {count : Nat} (h : type.Countable count) {bytes rest : Bytes}
    {values : List Value} (htimes : (type.codec.read.times count).run bytes = .ok (values, rest)) :
    (type.codec.readRun count).run bytes = .ok (values, rest) := by
  cases count with
  | zero => exact ((Ty.chains_codecIn type h).zero bytes).trans htimes
  | succ count =>
    obtain ⟨value, after, more, hvalue, -, -⟩ := Decoder.run_times_succ.mp htimes
    exact (Ty.run_times h (Ty.fieldsWhole_of_read type hvalue) bytes).trans htimes

-- ---------------------------------------------------------------------------
-- Arrays without bytes
-- ---------------------------------------------------------------------------

theorem Codec.run_units (count : Nat) (bytes : Bytes) :
    (Codec.unit.readRun count).run bytes = .ok (.replicate count (), bytes) := by
  induction count with
  | zero => rfl
  | succ count ih => exact Decoder.run_times_succ.mpr ⟨(), bytes, _, rfl, ih, rfl⟩

/-- Arrays of units take no bytes, so there are arrays of any length. -/
theorem Ty.run_unitArray (length : Nat) (bytes : Bytes) :
    (Ty.codec (.array .unit length)).read.run bytes =
      .ok (.list (.replicate length .unit), bytes) := by
  have hunits := Decoder.run_map_ok (f := List.map fun _ => Value.unit)
    (Codec.run_units length bytes)
  rw [List.map_replicate] at hunits
  exact Decoder.run_map_ok (f := Value.list) hunits

theorem Ty.run_unitArrays {length count : Nat} (h : ¬ count * length < sizeLimit) (bytes : Bytes) :
    ((Ty.codec (.array .unit length)).readRun count).run bytes =
      .error (.format .arrayCountOverflow) := by
  show (List.map Value.list <$> (if count * length < sizeLimit then _ else _ : Decoder _)).run
    bytes = _
  rw [if_neg h]
  rfl

end TypedStream
