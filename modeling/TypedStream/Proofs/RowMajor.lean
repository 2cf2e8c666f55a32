import TypedStream.Proofs.Grid
import TypedStream.Proofs.Ty.Accepting

/-!
# Coordinates and places

The coordinates within a shape, taken in lexicographic order, have the places 0, 1, 2, ... in the
data (`Grid.map_place?_indices`), so a grid with as many elements as its shape asks for is an array
in row-major order (`Grid.RowMajor`). The place is computed without leaving 64 bits, because it
stays below a product that the constructors have computed before (`Grid.placeInWords?_eq`): a
dimension of 0, behind which they compute nothing, is one that no coordinate gets past.
-/

namespace TypedStream

namespace Grid

/-- All coordinates within a shape, in lexicographic order. -/
def indices : (shape : List Nat) → List (List Nat)
  | [] => [[]]
  | dim :: shape => (List.range dim).flatMap fun i => (indices shape).map (i :: ·)

/-- `place?` in 64-bit words: there is no outcome if a product or a sum on the way is too large for
one. -/
def placeInWords? : (shape : List Nat) → (coordinates : List Nat) → (flat : Nat) →
    Option (Option Nat)
  | dim :: shape, i :: coordinates, flat =>
    if i < dim then
      if flat * dim < sizeLimit ∧ flat * dim + i < sizeLimit then
        placeInWords? shape coordinates (flat * dim + i)
      else none
    else some none
  | _, _, flat => some (some flat)

-- ---------------------------------------------------------------------------
-- Coordinates
-- ---------------------------------------------------------------------------

theorem mem_indices {shape coordinates : List Nat} :
    coordinates ∈ indices shape ↔ List.Forall₂ (· < ·) coordinates shape := by
  induction shape generalizing coordinates with
  | nil => rw [indices, List.mem_singleton, List.forall₂_nil_right_iff]
  | cons dim shape ih =>
    simp only [indices, List.mem_flatMap, List.mem_range, List.mem_map, ih]
    constructor
    · rintro ⟨i, hi, inner, hinner, rfl⟩
      exact .cons hi hinner
    · rintro (_ | ⟨hi, hinner⟩)
      exact ⟨_, hi, _, hinner, rfl⟩

theorem ascending_indices (shape : List Nat) : (indices shape).Pairwise (· < ·) := by
  induction shape with
  | nil => exact List.pairwise_singleton _ _
  | cons dim shape ih =>
    refine List.pairwise_flatMap.mpr ⟨fun i _ => ?_, ?_⟩
    · refine List.pairwise_map.mpr (ih.imp fun h => ?_)
      exact List.cons_lt_cons_iff.mpr (.inr ⟨rfl, h⟩)
    · refine List.pairwise_lt_range.imp fun {i j} hij c hc d hd => ?_
      obtain ⟨c, -, rfl⟩ := List.mem_map.mp hc
      obtain ⟨d, -, rfl⟩ := List.mem_map.mp hd
      exact List.cons_lt_cons_iff.mpr (.inl hij)

-- ---------------------------------------------------------------------------
-- Places
-- ---------------------------------------------------------------------------

/-- `n` rows of `width` numbers each are the numbers in order. -/
theorem flatMap_rows (f : Nat → α) (n width : Nat) :
    ((List.range n).flatMap fun row => (List.range width).map fun k => f (row * width + k)) =
      (List.range (n * width)).map f := by
  induction n with
  | zero => rw [Nat.zero_mul]; rfl
  | succ n ih =>
    rw [List.range_succ, List.flatMap_append, ih, List.flatMap_singleton, Nat.succ_mul,
      List.range_add, List.map_append, List.map_map]
    rfl

/-- Taken in order, coordinates have successive places. -/
theorem map_place?_indices (shape : List Nat) (flat : Nat) :
    (indices shape).map (place? shape · flat) =
      (List.range shape.prod).map fun k => some (flat * shape.prod + k) := by
  induction shape generalizing flat with
  | nil => simp [indices, place?]
  | cons dim shape ih =>
    have hrow : ∀ i ∈ List.range dim,
        ((indices shape).map (i :: ·)).map (place? (dim :: shape) · flat) =
          (List.range shape.prod).map fun k =>
            some (flat * (dim * shape.prod) + (i * shape.prod + k)) := by
      intro i hi
      have hstep : (place? (dim :: shape) · flat) ∘ (i :: ·) =
          (place? shape · (flat * dim + i)) :=
        funext fun _ => if_pos (List.mem_range.mp hi)
      rw [List.map_map, hstep, ih]
      refine List.map_congr_left fun k _ => congrArg some ?_
      rw [Nat.add_mul, Nat.mul_assoc, Nat.add_assoc]
    rw [indices, List.map_flatMap, List.flatMap_congr hrow, List.prod_cons]
    exact flatMap_rows (fun k => some (flat * (dim * shape.prod) + k)) dim shape.prod

theorem inside_of_place? {shape coordinates : List Nat} {flat : Nat}
    (hlength : coordinates.length = shape.length)
    (h : (place? shape coordinates flat).isSome) : List.Forall₂ (· < ·) coordinates shape := by
  induction shape generalizing coordinates flat with
  | nil =>
    obtain rfl := List.eq_nil_of_length_eq_zero hlength
    exact .nil
  | cons dim shape ih =>
    obtain ⟨i, coordinates, rfl⟩ := List.exists_cons_of_length_eq_add_one hlength
    rw [place?] at h
    split at h
    · next hi => exact .cons hi (ih (Nat.succ.inj hlength) h)
    · cases h

/-- The place so far is below the product of the dimensions so far, and those still to come in
front of a 0 only make that product larger. -/
theorem placeInWords?_eq {shape : List Nat} (coordinates : List Nat) {flat product : Nat}
    (hflat : flat < product) (hfits : product * (leading shape).prod < sizeLimit) :
    placeInWords? shape coordinates flat = some (place? shape coordinates flat) := by
  induction shape generalizing coordinates flat product with
  | nil => rfl
  | cons dim shape ih =>
    cases coordinates with
    | nil => rfl
    | cons i coordinates =>
      rw [placeInWords?, place?]
      by_cases hi : i < dim
      · have hleading : leading (dim :: shape) = dim :: leading shape :=
          List.takeWhile_cons_of_pos (by simpa using Nat.ne_zero_of_lt hi)
        rw [hleading, List.prod_cons, ← Nat.mul_assoc] at hfits
        have hnext : flat * dim + i < product * dim := by
          calc flat * dim + i < flat * dim + dim := Nat.add_lt_add_left hi _
            _ = (flat + 1) * dim := (Nat.succ_mul flat dim).symm
            _ ≤ product * dim := Nat.mul_le_mul_right dim hflat
        have hproduct : product * dim < sizeLimit :=
          Nat.lt_of_le_of_lt (Nat.le_mul_of_pos_right _ (leading_prod_pos shape)) hfits
        rw [if_pos hi, if_pos hi, if_pos (by omega)]
        exact ih coordinates hnext hfits
      · rw [if_neg hi, if_neg hi]

-- ---------------------------------------------------------------------------
-- Elements
-- ---------------------------------------------------------------------------

/-- The elements of a grid lie in the order of their coordinates. -/
structure RowMajor (g : Grid α) : Prop where
  in_words : ∀ coordinates,
    placeInWords? g.shape coordinates 0 = some (place? g.shape coordinates 0)
  isSome_get? : ∀ coordinates, coordinates.length = g.rank →
    ((g.get? coordinates).isSome ↔ List.Forall₂ (· < ·) coordinates g.shape)
  /-- Those who visit all coordinates in their order meet the elements in theirs. -/
  visits : ∃ visited : List (List Nat), visited.Pairwise (· < ·) ∧
    (∀ coordinates, coordinates ∈ visited ↔ List.Forall₂ (· < ·) coordinates g.shape) ∧
    visited.map (place? g.shape · 0) = (List.range g.data.length).map some ∧
    visited.map g.get? = g.data.map some

theorem rowMajor {g : Grid α} (hfits : (leading g.shape).prod < sizeLimit)
    (hsize : g.shape.prod = g.data.length) : g.RowMajor := by
  have hplaces : (indices g.shape).map (place? g.shape · 0) =
      (List.range g.data.length).map some := by
    rw [map_place?_indices, hsize, Nat.zero_mul]
    simp only [Nat.zero_add]
  have hvisits : (indices g.shape).map g.get? = g.data.map some := by
    calc (indices g.shape).map g.get?
        = ((indices g.shape).map (place? g.shape · 0)).map (·.bind (g.data[·]?)) := by
          rw [List.map_map]
          rfl
      _ = (List.range g.data.length).map (g.data[·]?) := by
          rw [hplaces, List.map_map]
          rfl
      _ = g.data.map some := by
          apply List.ext_getElem <;> simp
  refine ⟨fun coordinates => ?_, fun coordinates hlength => ⟨fun h => ?_, fun hinside => ?_⟩,
    indices g.shape, ascending_indices g.shape, fun _ => mem_indices, hplaces, hvisits⟩
  · exact placeInWords?_eq coordinates Nat.zero_lt_one (by rwa [Nat.one_mul])
  · obtain ⟨place, hplace, -⟩ := Option.bind_eq_some_iff.mp (Option.some_get h).symm
    exact inside_of_place? hlength (Option.isSome_of_eq_some hplace)
  · have hmem : g.get? coordinates ∈ g.data.map some := by
      rw [← hvisits]
      exact List.mem_map_of_mem (mem_indices.mpr hinside)
    obtain ⟨value, -, hvalue⟩ := List.mem_map.mp hmem
    rw [← hvalue]
    rfl

theorem rowMajor_of_ofData (shape : List Nat) (data : List α) {g : Grid α}
    (h : ofData shape data = .ok g) : g = ⟨shape, data⟩ ∧ g.RowMajor := by
  rw [ofData_eq] at h
  split at h
  · next hfits =>
    split at h
    · next hsize =>
      cases h
      exact ⟨rfl, rowMajor hfits hsize⟩
    · cases h
  · cases h

-- ---------------------------------------------------------------------------
-- Decoding
-- ---------------------------------------------------------------------------

/-- The decoder makes no grid that the constructors would not. -/
theorem ofData_of_read {strict : Prop} {codec : Codec α} (h : codec.Normalizes strict)
    {rank : Nat} {bytes : Bytes} {g : Grid α}
    (hrun : (Codec.grid rank codec).read.runAll bytes = .ok g) :
    g.rank = rank ∧ ofData g.shape g.data = .ok g := by
  refine ⟨Codec.rank_of_readShaped hrun, ?_⟩
  obtain ⟨shape, front, back, -, -, hgrid⟩ := Decoder.runAll_bind.mp hrun
  unfold Codec.readGrid at hgrid
  split at hgrid
  · next count hcount =>
    obtain ⟨data, hdata, rfl⟩ := Decoder.runAll_map.mp hgrid
    have hlength : count = data.length := (h.length hdata).symm
    rw [ofData, hcount, hlength]
    exact if_pos rfl
  · exact absurd hgrid Decoder.runAll_malformed

/-- In every array that has been built or read, coordinates are places in row-major order. (What
`self` stands for only matters to arrays within a type that refers to itself.) -/
theorem row_major :
    (∀ {α : Type} (shape : List Nat) (data : List α) {g : Grid α}, ofData shape data = .ok g →
      g = ⟨shape, data⟩ ∧ g.RowMajor) ∧
    ∀ {self : Unit → Codec Value}, (self ()).Normalizes False →
      ∀ {item : Ty} {rank : Nat} {input input' : InputStream} {value : Value},
        ((Ty.grid item rank).codecIn self).read.exec input = .ok value input' →
          ∃ g : Grid Value, value = .ofGrid g ∧ g.rank = rank ∧ g.RowMajor := by
  refine ⟨rowMajor_of_ofData, fun {self} hself {item rank input input' value} h => ?_⟩
  obtain ⟨bytes, hrun⟩ := InputStream.exists_runAll_of_exec h
  obtain ⟨g, hgrid, rfl⟩ := Decoder.runAll_map.mp hrun
  have hitem : (item.codecIn self).Normalizes False :=
    Ty.normalizes_codecIn hself item False.elim
  obtain ⟨hrank, hbuilt⟩ := ofData_of_read hitem hgrid
  exact ⟨g, rfl, hrank, (rowMajor_of_ofData _ _ hbuilt).2⟩

/-- A square, a shape with a 0 behind other dimensions, one without dimensions, and two booleans
that are read from a stream. -/
theorem row_major_flags :
    RowMajor ⟨[2, 2], [1, 2, 3, 4]⟩ ∧ RowMajor (α := Nat) ⟨[3, 0, 2], []⟩ ∧
    RowMajor ⟨[], [7]⟩ ∧
    ∃ input', (Ty.grid .bool 2).codec.read.exec (InputStream.open (.ofBytes [2, 1, 1, 0]) 16 0) =
      .ok (.grid [2, 1] [.bool true, .bool false]) input' ∧
        RowMajor ⟨[2, 1], [Value.bool true, Value.bool false]⟩ := by
  obtain ⟨hbuilt, hread⟩ := row_major
  refine ⟨(hbuilt [2, 2] [1, 2, 3, 4] rfl).2, (hbuilt [3, 0, 2] [] rfl).2,
    (hbuilt [] [7] rfl).2, ?_⟩
  have hrun : (Ty.grid .bool 2).codec.read.run ([2, 1, 1, 0] ++ []) =
      .ok (.grid [2, 1] [.bool true, .bool false], []) := rfl
  obtain ⟨input', h, -⟩ := exec_front (InputStream.ahead_ofBytes [2, 1, 1, 0] 16 0) hrun
  obtain ⟨g, hvalue, -, hrows⟩ := hread Codec.normalizes_unreachable h
  obtain rfl : g = ⟨[2, 1], [.bool true, .bool false]⟩ := by
    cases g
    cases hvalue
    rfl
  exact ⟨input', h, hrows⟩

end Grid

end TypedStream
