import TypedStream.Proofs.Index.Recording

/-!
# Where an index finds an item

The block of an item ends where the first block behind the item starts. The search for that block
halves the block starts (`StreamIndex.blockAfter_append`). For a stream that has been recorded it
gives the place of the item and how many items of its block are left (`Batch.locate`), also where
items without bytes share their place with others.
-/

namespace TypedStream

namespace StreamIndex

/-- The search keeps to a range that has the last of the starts up to `item` in it. -/
theorem bisect_eq {starts : Array Nat} {item count : Nat}
    (hstarts : ∀ i < starts.size, starts.getD i 0 ≤ item ↔ i < count) {base size : Nat}
    (hbase : base ≤ count - 1) (hcount : count ≤ base + size) (hsize : base + size ≤ starts.size) :
    bisect starts item base size = count - 1 := by
  fun_induction bisect starts item base size with
  | case1 base size hstop => omega
  | case2 base size hgo half hle ih =>
    have hlt := (hstarts (base + half) (by omega)).mp hle
    exact ih (by omega) (by omega) (by omega)
  | case3 base size hgo half hgt ih =>
    have hnot := mt (hstarts (base + half) (by omega)).mpr hgt
    exact ih hbase (by omega) (by omega)

theorem blockAfter_append {low high : List Nat} {item : Nat} (hlow : ∀ first ∈ low, first ≤ item)
    (hhigh : ∀ first ∈ high, item < first) : blockAfter (low ++ high) item = low.length := by
  have hstarts : ∀ i < (low ++ high).length, (low ++ high).getD i 0 ≤ item ↔ i < low.length := by
    intro i hi
    rw [List.getD_eq_getElem?_getD, List.getElem?_eq_getElem hi, Option.getD_some]
    constructor
    · intro hle
      by_contra hge
      rw [List.getElem_append_right (Nat.le_of_not_lt hge)] at hle
      exact absurd hle (Nat.not_le.mpr (hhigh _ (List.getElem_mem _)))
    · intro hlt
      rw [List.getElem_append_left hlt]
      exact hlow _ (List.getElem_mem _)
  rcases Nat.eq_zero_or_pos (low ++ high).length with hzero | hpos
  · obtain ⟨rfl, rfl⟩ := List.append_eq_nil_iff.mp (List.eq_nil_of_length_eq_zero hzero)
    rfl
  · have hbisect : bisect (low ++ high).toArray item 0 (low ++ high).length = low.length - 1 :=
      bisect_eq (by simpa using hstarts) (Nat.zero_le _) (by simp) (by simp)
    have hlast : (low ++ high).getD (low.length - 1) 0 ≤ item ↔ low.length - 1 < low.length :=
      hstarts _ (by rw [List.length_append] at hpos ⊢; omega)
    have hafter : blockAfter (low ++ high) item =
        if (low ++ high).getD (low.length - 1) 0 ≤ item then low.length - 1 + 1
        else low.length - 1 := by
      rw [← hbisect]
      cases hlist : low ++ high with
      | nil =>
        rw [hlist] at hpos
        cases hpos
      | cons first starts => rfl
    rw [hafter]
    split
    · next hle =>
      have := hlast.mp hle
      omega
    · next hgt =>
      have := mt hlast.mpr hgt
      omega

/-- The block of an item ends at the first of the starts behind the item. -/
theorem find_eq {index : StreamIndex} {step : String} {low high : List Nat} {item : Nat}
    (hitem : item < index.count step) (hblocks : index.blocksOf step = low ++ high)
    (hlow : ∀ first ∈ low, first ≤ item) (hhigh : ∀ first ∈ high, item < first) :
    index.find step item = .ok
      ⟨(index.itemsOf step)[item], high.head?.getD (index.count step) - item⟩ := by
  have hnext : (low ++ high)[low.length]? = high.head? := by
    rw [List.getElem?_append_right (Nat.le_refl _), Nat.sub_self, List.head?_eq_getElem?]
  rw [StreamIndex.find, hblocks, List.getElem?_eq_getElem hitem]
  simp only [blockAfter_append hlow hhigh, hnext, count]

theorem find_out_of_range {index : StreamIndex} {step : String} {item : Nat}
    (hitem : index.count step ≤ item) :
    index.find step item = .error (.index (.itemOutOfRange item step (index.count step))) := by
  rw [StreamIndex.find, List.getElem?_eq_none hitem]
  rfl

end StreamIndex

namespace Batch

theorem firsts_ge {count first : Nat} {batches : List (Batch type)}
    (h : first ∈ firsts count batches) : count ≤ first := by
  induction batches generalizing count with
  | nil => cases h
  | cons batch batches ih =>
    by_cases hdata : batch.data = []
    · rw [firsts_nil hdata] at h
      exact ih h
    · rw [firsts_cons hdata] at h
      rcases List.mem_cons.mp h with rfl | h
      · exact Nat.le_refl _
      · exact Nat.le_trans (Nat.le_add_right _ _) (ih h)

theorem head?_firsts (count : Nat) (batches : List (Batch type)) :
    (firsts count batches).head?.getD (count + (items batches).length) = count := by
  induction batches with
  | nil => rfl
  | cons batch batches ih =>
    by_cases hdata : batch.data = []
    · rw [firsts_nil hdata, items_nil hdata, ih]
    · rw [firsts_cons hdata]
      rfl

/-- Item `k` of batches that lie at `pos`, after `count` items, is the first of `run`. It lies
behind `front`; the block ends with `run`, and `later` come behind it. -/
structure Located (batches : List (Batch type)) (k pos count : Nat) (front : Bytes)
    (run : List (Datum type)) (later : List (Batch type)) : Prop where
  bytes_eq : streamBytes batches = front ++ (run.flatMap Datum.bytes ++ streamBytes later)
  items_eq : (items batches).drop k = run ++ items later
  fits : type.RunFits run.length
  offset_eq : (offsets pos batches)[k]? = some (pos + front.length)
  block_eq : ∃ low high, firsts count batches = low ++ high ∧ (∀ first ∈ low, first ≤ count + k) ∧
    (∀ first ∈ high, count + k < first) ∧
    high.head?.getD (count + (items batches).length) = count + k + run.length

section
variable {batch : Batch type} {batches later : List (Batch type)} {k pos count : Nat}
  {front : Bytes} {run : List (Datum type)}

theorem length_items_cons (batch : Batch type) (batches : List (Batch type)) :
    (items (batch :: batches)).length = batch.data.length + (items batches).length := by
  rw [items_cons, List.length_append]

/-- Nothing has been written or recorded of an empty batch. -/
theorem Located.behind_empty (h : Located batches k pos count front run later)
    (hdata : batch.data = []) : Located (batch :: batches) k pos count front run later where
  bytes_eq := by rw [streamBytes_cons, bytes_nil hdata, List.nil_append, h.bytes_eq]
  items_eq := by rw [items_nil hdata, h.items_eq]
  fits := h.fits
  offset_eq := by rw [offsets_nil hdata, h.offset_eq]
  block_eq := by
    rw [firsts_nil hdata, items_nil hdata]
    exact h.block_eq

theorem located_inside (hdata : batch.data ≠ []) (hk : k < batch.data.length)
    (batches : List (Batch type)) (pos count : Nat) :
    Located (batch :: batches) k pos count
      (varint batch.data.length ++ (batch.data.take k).flatMap Datum.bytes)
      (batch.data.drop k) batches where
  bytes_eq := by
    rw [streamBytes_cons, bytes_eq hdata, flatMap_split Datum.bytes batch.data k]
    simp only [List.append_assoc]
  items_eq := by rw [items_cons, List.drop_append_of_le_length (Nat.le_of_lt hk)]
  fits := by
    refine batch.fits.mono ?_
    rw [List.length_drop]
    exact Nat.sub_le _ _
  offset_eq := by
    rw [offsets, List.getElem?_append_left (by rwa [Datum.length_starts]),
      Datum.getElem?_starts hk, List.length_append, Nat.add_assoc]
  block_eq := by
    refine ⟨[count], firsts (count + batch.data.length) batches, firsts_cons hdata .., ?_, ?_, ?_⟩
    · intro first hfirst
      rw [List.mem_singleton.mp hfirst]
      exact Nat.le_add_right _ _
    · intro first hfirst
      exact Nat.lt_of_lt_of_le (Nat.add_lt_add_left hk _) (firsts_ge hfirst)
    · rw [length_items_cons, ← Nat.add_assoc, head?_firsts, List.length_drop]
      omega

theorem Located.behind (hdata : batch.data ≠ []) (hk : batch.data.length ≤ k)
    (h : Located batches (k - batch.data.length) (pos + batch.bytes.length)
      (count + batch.data.length) front run later) :
    Located (batch :: batches) k pos count (batch.bytes ++ front) run later where
  bytes_eq := by rw [streamBytes_cons, h.bytes_eq, List.append_assoc]
  items_eq := by
    rw [items_cons, List.drop_append, List.drop_eq_nil_of_le hk, List.nil_append, h.items_eq]
  fits := h.fits
  offset_eq := by
    rw [offsets, List.getElem?_append_right (by rwa [Datum.length_starts]),
      Datum.length_starts, h.offset_eq, List.length_append, Nat.add_assoc]
  block_eq := by
    obtain ⟨low, high, hfirsts, hlow, hhigh, hhead⟩ := h.block_eq
    have hcount : count + batch.data.length + (k - batch.data.length) = count + k := by omega
    rw [hcount] at hlow hhigh hhead
    refine ⟨count :: low, high, ?_, ?_, hhigh, ?_⟩
    · rw [firsts_cons hdata, hfirsts, List.cons_append]
    · exact List.forall_mem_cons.mpr ⟨Nat.le_add_right _ _, hlow⟩
    · rw [length_items_cons, ← Nat.add_assoc, hhead]

end

theorem locate {batches : List (Batch type)} {k : Nat} (hk : k < (items batches).length)
    (pos count : Nat) : ∃ front run later, Located batches k pos count front run later := by
  induction batches generalizing k pos count with
  | nil => exact absurd hk (Nat.not_lt_zero k)
  | cons batch batches ih =>
    by_cases hdata : batch.data = []
    · rw [items_nil hdata] at hk
      obtain ⟨front, run, later, h⟩ := ih hk pos count
      exact ⟨front, run, later, h.behind_empty hdata⟩
    · by_cases hblock : k < batch.data.length
      · exact ⟨_, _, _, located_inside hdata hblock batches pos count⟩
      · rw [length_items_cons] at hk
        have hle := Nat.le_of_not_lt hblock
        obtain ⟨front, run, later, h⟩ := ih (k := k - batch.data.length) (by omega)
          (pos + batch.bytes.length) (count + batch.data.length)
        exact ⟨_, run, later, h.behind hdata hle⟩

end Batch

namespace StreamIndex

/-- An index that tells where the items of a stream are finds each of them. -/
theorem Tells.find {index : StreamIndex} {name : String} {start : Option Nat} {pos k : Nat}
    {batches later : List (Batch type)} {front : Bytes} {run : List (Datum type)}
    (h : index.Tells name start (Batch.offsets pos batches) (Batch.firsts 0 batches))
    (hlocated : Batch.Located batches k pos 0 front run later) :
    index.find name k = .ok ⟨pos + front.length, run.length⟩ := by
  obtain ⟨low, high, hfirsts, hlow, hhigh, hhead⟩ := hlocated.block_eq
  rw [Nat.zero_add] at hlow hhigh
  rw [Nat.zero_add, Nat.zero_add, ← Batch.length_offsets pos, ← h.items_eq] at hhead
  obtain ⟨hitem, hoffset⟩ := List.getElem?_eq_some_iff.mp (h.items_eq ▸ hlocated.offset_eq)
  rw [find_eq hitem (h.blocks_eq.trans hfirsts) hlow hhigh, hoffset, count, hhead,
    Nat.add_sub_cancel_left]

end StreamIndex

end TypedStream
