import TypedStream.Proofs.Index.Search

/-!
# Lookup in an index that has been built up

An index is built up from records of blocks, in any order of the steps and of any length, blocks
without items included. Under each name it then has the items of the blocks recorded under that
name, one after the other, and where each of these blocks starts (`StreamIndex.tells_recordAll`), so
an item is found in the block that it was recorded with (`StreamIndex.find_recorded`). Of blocks
that start at one place only the last has items.
-/

namespace TypedStream

namespace StreamIndex

/-- Items that are recorded at once. -/
inductive Record where
  | item (step : String) (offset : Nat)
  | block (step : String) (offsets : List Nat)

namespace Record

def step : Record → String
  | item step _ | block step _ => step

def offsets : Record → List Nat
  | item _ offset => [offset]
  | block _ offsets => offsets

/-- The offsets recorded under one name, record by record. -/
def slices (name : String) (records : List Record) : List (List Nat) :=
  (records.filter fun record => record.step = name).map offsets

/-- Where the slices start, `count` items before them. -/
def starts : (count : Nat) → (slices : List (List Nat)) → List Nat
  | _, [] => []
  | count, slice :: slices => count :: starts (count + slice.length) slices

/-- How many items there are from item `k` to the end of the slice that it comes from. -/
def left : (slices : List (List Nat)) → (k : Nat) → Nat
  | [], _ => 0
  | slice :: slices, k =>
    if k < slice.length then slice.length - k else left slices (k - slice.length)

theorem slices_cons_self {record : Record} {name : String} (h : record.step = name)
    (records : List Record) : slices name (record :: records) =
      record.offsets :: slices name records := by
  simp [slices, h]

theorem slices_cons_ne {record : Record} {name : String} (h : record.step ≠ name)
    (records : List Record) : slices name (record :: records) = slices name records := by
  simp [slices, h]

theorem starts_append (count : Nat) (slices others : List (List Nat)) :
    starts count (slices ++ others) =
      starts count slices ++ starts (count + slices.flatten.length) others := by
  induction slices generalizing count with
  | nil => rfl
  | cons slice slices ih =>
    rw [List.cons_append, starts, starts, ih, List.flatten_cons, List.length_append, Nat.add_assoc,
      List.cons_append]

theorem starts_bounds {count first : Nat} {slices : List (List Nat)}
    (h : first ∈ starts count slices) : count ≤ first ∧ first ≤ count + slices.flatten.length := by
  induction slices generalizing count with
  | nil => cases h
  | cons slice slices ih =>
    rw [List.flatten_cons, List.length_append]
    rcases List.mem_cons.mp h with rfl | h
    · omega
    · have := ih h
      omega

theorem head?_starts (count : Nat) (slices : List (List Nat)) :
    (starts count slices).head?.getD (count + slices.flatten.length) = count := by
  cases slices <;> rfl

/-- Each item lies in one of the slices. -/
theorem exists_slice {slices : List (List Nat)} {k : Nat} (hk : k < slices.flatten.length) :
    ∃ before slice after i, slices = before ++ slice :: after ∧
      k = before.flatten.length + i ∧ i < slice.length ∧ left slices k = slice.length - i := by
  induction slices generalizing k with
  | nil => exact absurd hk (Nat.not_lt_zero k)
  | cons slice slices ih =>
    by_cases hin : k < slice.length
    · exact ⟨[], slice, slices, k, rfl, (Nat.zero_add k).symm, hin, if_pos hin⟩
    · rw [List.flatten_cons, List.length_append] at hk
      obtain ⟨before, found, after, i, rfl, hkey, hi, hleft⟩ := ih (k := k - slice.length) (by omega)
      refine ⟨slice :: before, found, after, i, rfl, ?_, hi, ?_⟩
      · rw [List.flatten_cons, List.length_append]
        omega
      · rw [left, if_neg hin, hleft]

end Record

def record (index : StreamIndex) : Record → StreamIndex
  | .item step offset => index.addItem step offset
  | .block step offsets => index.addBlock step offsets

def recordAll (records : List Record) (index : StreamIndex) : StreamIndex :=
  records.foldl record index

-- ---------------------------------------------------------------------------
-- What is recorded
-- ---------------------------------------------------------------------------

section
variable {index : StreamIndex} {name : String} {start : Option Nat} {items blocks : List Nat}

theorem record_eq (index : StreamIndex) (record : Record) :
    index.record record = index.addBlock record.step record.offsets := by
  cases record <;> rfl

theorem Tells.recordAll (h : index.Tells name start items blocks) (records : List Record) :
    (index.recordAll records).Tells name start (items ++ (Record.slices name records).flatten)
      (blocks ++ Record.starts items.length (Record.slices name records)) := by
  induction records generalizing index items blocks with
  | nil =>
    rw [Record.slices, List.filter_nil, List.map_nil, List.flatten_nil, List.append_nil]
    exact ⟨h.start_eq, h.items_eq, h.blocks_eq.trans (List.append_nil _).symm⟩
  | cons record records ih =>
    rw [StreamIndex.recordAll, List.foldl_cons, record_eq]
    by_cases hstep : record.step = name
    · subst hstep
      have htells := ih (h.addBlock record.offsets)
      rw [List.append_assoc, List.append_assoc, List.length_append] at htells
      rw [Record.slices_cons_self rfl]
      exact htells
    · rw [Record.slices_cons_ne hstep]
      exact ih (h.addBlock_ne (Ne.symm hstep) record.offsets)

end

theorem tells_recordAll (records : List Record) (name : String) :
    (recordAll records {}).Tells name none (Record.slices name records).flatten
      (Record.starts 0 (Record.slices name records)) :=
  (tells_empty name).recordAll records

-- ---------------------------------------------------------------------------
-- What is found
-- ---------------------------------------------------------------------------

/-- An item is found in the slice that it lies in, with what is left of it. -/
theorem Tells.find_slice {index : StreamIndex} {name : String} {start : Option Nat}
    {before after : List (List Nat)} {slice all : List Nat} {i : Nat}
    (h : index.Tells name start all (Record.starts 0 (before ++ slice :: after)))
    (hall : all = (before ++ slice :: after).flatten) (hi : i < slice.length)
    (hk : before.flatten.length + i < all.length) :
    index.find name (before.flatten.length + i) =
      .ok ⟨all[before.flatten.length + i], slice.length - i⟩ := by
  have hblocks : index.blocksOf name = (Record.starts 0 before ++ [before.flatten.length]) ++
      Record.starts (before.flatten.length + slice.length) after := by
    rw [h.blocks_eq, Record.starts_append, Nat.zero_add, Record.starts, List.append_assoc]
    rfl
  have hcount : index.count name =
      before.flatten.length + slice.length + after.flatten.length := by
    rw [count, h.items_eq, hall, List.flatten_append, List.flatten_cons, List.length_append,
      List.length_append, Nat.add_assoc]
  have hlow : ∀ first ∈ Record.starts 0 before ++ [before.flatten.length],
      first ≤ before.flatten.length + i := by
    intro first hfirst
    rcases List.mem_append.mp hfirst with hfirst | hfirst
    · have := (Record.starts_bounds hfirst).2
      omega
    · rw [List.mem_singleton.mp hfirst]
      exact Nat.le_add_right _ _
  have hhigh : ∀ first ∈ Record.starts (before.flatten.length + slice.length) after,
      before.flatten.length + i < first := by
    intro first hfirst
    have := (Record.starts_bounds hfirst).1
    omega
  have hitem : before.flatten.length + i < index.count name := by
    rwa [count, h.items_eq]
  rw [find_eq hitem hblocks hlow hhigh, hcount, Record.head?_starts, Nat.add_sub_add_left]
  simp only [h.items_eq]

/-- An index that has been built up counts the items recorded for a step and finds each of them,
with as many left in its block as were recorded with it from there on. That is one at least, so the
difference it is computed as is exact. -/
theorem find_recorded (records : List Record) (step : String) (k : Nat) :
    let index := recordAll records {}
    let all := (Record.slices step records).flatten
    index.count step = all.length ∧
    ((∃ fault, index.find step k = .error (.index fault)) ↔ all.length ≤ k) ∧
    (all.length ≤ k →
      index.find step k = .error (.index (.itemOutOfRange k step all.length))) ∧
    ∀ hk : k < all.length,
      index.find step k = .ok ⟨all[k], Record.left (Record.slices step records) k⟩ ∧
      1 ≤ Record.left (Record.slices step records) k := by
  intro index all
  have htells : index.Tells step none all _ := tells_recordAll records step
  have hcount : index.count step = all.length := congrArg List.length htells.items_eq
  have hrefused : all.length ≤ k →
      index.find step k = .error (.index (.itemOutOfRange k step all.length)) := by
    rw [← hcount]
    exact find_out_of_range
  have hfound : ∀ hk : k < all.length,
      index.find step k = .ok ⟨all[k], Record.left (Record.slices step records) k⟩ ∧
      1 ≤ Record.left (Record.slices step records) k := by
    intro hk
    obtain ⟨before, slice, after, i, hslices, rfl, hi, hleft⟩ := Record.exists_slice hk
    rw [hleft]
    exact ⟨(hslices ▸ htells).find_slice (congrArg List.flatten hslices) hi hk,
      Nat.sub_pos_of_lt hi⟩
  refine ⟨hcount, ⟨fun ⟨fault, h⟩ => ?_, fun hk => ⟨_, hrefused hk⟩⟩, hrefused, hfound⟩
  by_contra hk
  cases h.symm.trans (hfound (Nat.lt_of_not_le hk)).1

/-- Two streams, with blocks without items in between: items 2 and 3 of `a` share a block that
starts where an empty one does. -/
theorem find_recorded_two :
    let records : List Record := [.block "a" [], .item "a" 10, .block "b" [40, 41],
      .block "a" [20], .block "a" [], .block "a" [30, 31], .block "b" []]
    let index := recordAll records {}
    index.count "a" = 4 ∧ index.blocksOf "a" = [0, 0, 1, 2, 2] ∧
      index.find "a" 2 = .ok ⟨30, 2⟩ ∧ index.find "a" 3 = .ok ⟨31, 1⟩ ∧
      index.find "a" 4 = .error (.index (.itemOutOfRange 4 "a" 4)) ∧
      index.find "b" 1 = .ok ⟨41, 1⟩ := by
  intro records index
  have ha : Record.slices "a" records = [[], [10], [20], [], [30, 31]] := by decide
  have hb : Record.slices "b" records = [[40, 41], []] := by decide
  obtain ⟨hcount, -, -, hsecond⟩ := find_recorded records "a" 2
  obtain ⟨-, -, -, hthird⟩ := find_recorded records "a" 3
  obtain ⟨-, -, hrefused, -⟩ := find_recorded records "a" 4
  obtain ⟨-, -, -, hother⟩ := find_recorded records "b" 1
  rw [ha] at hcount hrefused
  simp only [ha] at hsecond hthird
  simp only [hb] at hother
  exact ⟨hcount, rfl, (hsecond (by decide)).1, (hthird (by decide)).1, hrefused (by decide),
    (hother (by decide)).1⟩

end StreamIndex

end TypedStream
