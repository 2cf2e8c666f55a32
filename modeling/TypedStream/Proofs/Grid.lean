import Mathlib.Algebra.Order.BigOperators.GroupWithZero.List
import Mathlib.Algebra.Order.Ring.Nat
import Mathlib.Data.List.TakeWhile
import TypedStream.Proofs.Ty.RoundTrip

/-!
# Which shapes are taken

The dimensions are multiplied from the left, and a product that leaves 64 bits on the way is refused
even if a 0 follows that would bring it back. What counts are thus the dimensions in front of the
first 0 (`Grid.elementCount_eq`): if their product fits, an array is taken exactly if it has as many
elements as all its dimensions multiply to, by the constructors and by the decoders alike
(`Grid.fills_shape`). In a shape without a 0 these are all dimensions.
-/

namespace TypedStream

namespace Grid

/-- The dimensions in front of the first 0. -/
def leading (shape : List Nat) : List Nat := shape.takeWhile (· ≠ 0)

theorem leading_eq_self {shape : List Nat} (h : 0 ∉ shape) : leading shape = shape := by
  refine List.takeWhile_eq_self_iff.mpr fun dim hdim => decide_eq_true ?_
  rintro rfl
  exact h hdim

theorem leading_prod_pos (shape : List Nat) : 0 < (leading shape).prod := by
  refine List.one_le_prod fun dim (hdim : dim ∈ leading shape) => ?_
  have hne : dim ≠ 0 := of_decide_eq_true (List.mem_takeWhile_imp (p := fun d => d ≠ 0) hdim)
  exact Nat.one_le_iff_ne_zero.mpr hne

/-- Behind a product of 0 every dimension is taken. -/
theorem foldlM_product (shape : List Nat) {product : Nat} (h : product < sizeLimit) :
    shape.foldlM
        (fun product dim => if product * dim < sizeLimit then some (product * dim) else none)
        product =
      if product * (leading shape).prod < sizeLimit then some (product * shape.prod) else none := by
  induction shape generalizing product with
  | nil =>
    rw [leading, List.takeWhile_nil, List.prod_nil, Nat.mul_one, if_pos h]
    rfl
  | cons dim shape ih =>
    rw [List.foldlM_cons, List.prod_cons, ← Nat.mul_assoc]
    by_cases hzero : dim = 0
    · subst hzero
      rw [Nat.mul_zero, if_pos (by decide), Option.bind_eq_bind, Option.bind_some,
        ih (by decide), Nat.zero_mul, Nat.zero_mul, if_pos (by decide), leading,
        List.takeWhile_cons_of_neg (by simp), List.prod_nil, Nat.mul_one, if_pos h]
    · have hleading : leading (dim :: shape) = dim :: leading shape :=
        List.takeWhile_cons_of_pos (by simpa using hzero)
      rw [hleading, List.prod_cons, ← Nat.mul_assoc]
      by_cases hfits : product * dim < sizeLimit
      · rw [if_pos hfits]
        exact ih hfits
      · -- the dimensions still to come in front of a 0 cannot make the product smaller
        have hle := Nat.le_mul_of_pos_right (product * dim) (leading_prod_pos shape)
        rw [if_neg hfits, if_neg (by omega)]
        rfl

theorem elementCount_eq (shape : List Nat) :
    elementCount shape =
      if (leading shape).prod < sizeLimit then .ok shape.prod
      else .error (.shapeOverflow shape) := by
  rw [elementCount, elementCount?, foldlM_product shape (by decide), Nat.one_mul, Nat.one_mul]
  by_cases hfits : (leading shape).prod < sizeLimit
  · rw [if_pos hfits, if_pos hfits]
  · rw [if_neg hfits, if_neg hfits]

theorem ofData_eq (shape : List Nat) (data : List α) :
    ofData shape data =
      if (leading shape).prod < sizeLimit then
        if shape.prod = data.length then .ok ⟨shape, data⟩
        else .error (.shapeMismatch shape shape.prod data.length)
      else .error (.shapeOverflow shape) := by
  rw [ofData, elementCount_eq]
  split
  · show (if shape.prod = data.length then _ else _ : Except Malformed (Grid α)) = _
    split <;> rfl
  · rfl

/-- Whether there are as many elements as the product says is what decides, except where there are
and an overflow in front of a 0 keeps the constructors from seeing it. -/
theorem ofData_exact (shape : List Nat) (data : List α) :
    ((∃ grid, ofData shape data = .ok grid) ↔ shape.prod = data.length) ↔
      (leading shape).prod < sizeLimit ∨ shape.prod ≠ data.length := by
  rw [ofData_eq]
  by_cases hfits : (leading shape).prod < sizeLimit <;>
    by_cases hsize : shape.prod = data.length <;> simp [hfits, hsize]

end Grid

-- ---------------------------------------------------------------------------
-- Decoding
-- ---------------------------------------------------------------------------

/-- A run of arrays whose elements are too many to be counted is refused before anything is read. -/
theorem Ty.run_readRun_overflow {self : Unit → Codec Value} : (type : Ty) → {count : Nat} →
    ¬ type.RunFits count → ∀ bytes,
      ((type.codecIn self).readRun count).run bytes = .error (.format .arrayCountOverflow)
  | .array item length, count, h, bytes => by
    show (List.map Value.list <$>
      (if count * length < sizeLimit then _ else _ : Decoder (List (List Value)))).run bytes = _
    rw [Decoder.run_map]
    by_cases hlimit : count * length < sizeLimit
    · have hitems : ((item.codecIn self).readRun (count * length)).run bytes = _ :=
        Ty.run_readRun_overflow item (fun hfits => h ⟨hlimit, hfits⟩) bytes
      rw [if_pos hlimit, Decoder.run_map, hitems]
    · rw [if_neg hlimit]
      rfl
  | .bool, _, h, _ | .int _, _, h, _ | .float _, _, h, _ | .complex _, _, h, _ | .string, _, h, _
  | .unit, _, h, _ | .option _, _, h, _ | .wrapped _, _, h, _ | .list _, _, h, _
  | .map _ _, _, h, _ | .hashMap _ _ _, _, h, _ | .grid _ _, _, h, _ | .rankedGrid _, _, h, _
  | .record _ _ _, _, h, _ | .union _ _, _, h, _ | .enum _ _ _, _, h, _ | .fix _, _, h, _
  | .self, _, h, _ => absurd trivial h

namespace Grid

/-- What it comes to to read a grid with these dimensions and elements, `rest` behind it. -/
structure Settles (item : Ty) (shape : List Nat) (data : List Value) (rest : Bytes)
    (outcome : Except Error (Value × Bytes)) : Prop where
  taken : (leading shape).prod < sizeLimit → item.RunFits data.length →
    outcome = .ok (.grid shape data, rest)
  uncounted : (leading shape).prod < sizeLimit → ¬ item.RunFits data.length →
    outcome = .error (.format .arrayCountOverflow)
  overflows : ¬ (leading shape).prod < sizeLimit →
    outcome = .error (.format (.shapeOverflow shape))

section
variable {item : Ty} {shape : List Nat} {data written : List Value} {dims : Bytes}

theorem settles_readGrid (hforms : List.Forall₂ item.Lists data written)
    (hsize : shape.prod = data.length) (rest : Bytes) :
    Settles item shape data rest
      ((Value.ofGrid <$> Codec.readGrid item.codec shape).run
        (written.flatMap item.codec.encode ++ rest)) := by
  have hrun : (leading shape).prod < sizeLimit →
      Codec.readGrid item.codec shape = Grid.mk shape <$> item.codec.readRun data.length := by
    intro hfits
    rw [Codec.readGrid, elementCount_eq, if_pos hfits, hsize]
  refine ⟨fun hfits hcount => ?_, fun hfits hcount => ?_, fun hover => ?_⟩
  · rw [hrun hfits]
    exact Decoder.run_map_ok (Decoder.run_map_ok (item.carries_codec.readRun hforms hcount rest))
  · rw [hrun hfits, Decoder.run_map, Decoder.run_map, Ty.codec,
      Ty.run_readRun_overflow item hcount]
  · rw [Codec.readGrid, elementCount_eq, if_neg hover]
    rfl

theorem settles_grid (hforms : List.Forall₂ item.Lists data written)
    (hsize : shape.prod = data.length)
    (hdims : (Decoder.varint.times shape.length).runAll dims = .ok shape) (rest : Bytes) :
    Settles item shape data rest ((Ty.grid item shape.length).codec.read.run
      (dims ++ (written.flatMap item.codec.encode ++ rest))) := by
  have hread : ∀ back, (Decoder.varint.times shape.length).run (dims ++ back) = .ok (shape, back) :=
    fun back => Decoder.run_eq_ok_iff.mpr ⟨dims, rfl, hdims⟩
  show Settles item shape data rest ((Value.ofGrid <$>
    (Decoder.varint.times shape.length >>= Codec.readGrid item.codec)).run _)
  rw [Decoder.run_map, Decoder.run_bind_ok (hread _), ← Decoder.run_map]
  exact settles_readGrid hforms hsize rest

theorem settles_rankedGrid (hforms : List.Forall₂ item.Lists data written)
    (hsize : shape.prod = data.length) {rank : Bytes}
    (hrank : Decoder.varint.runAll rank = .ok shape.length)
    (hdims : (Decoder.varint.times shape.length).runAll dims = .ok shape) (rest : Bytes) :
    Settles item shape data rest ((Ty.rankedGrid item).codec.read.run
      (rank ++ (dims ++ (written.flatMap item.codec.encode ++ rest)))) := by
  have hread : ∀ back, Decoder.varint.run (rank ++ back) = .ok (shape.length, back) :=
    fun back => Decoder.run_eq_ok_iff.mpr ⟨rank, rfl, hrank⟩
  have hgrid := settles_grid hforms hsize hdims rest
  show Settles item shape data rest ((Value.ofGrid <$> (Decoder.varint >>= fun n =>
    Decoder.varint.times n >>= Codec.readGrid item.codec)).run _)
  rw [Decoder.run_map, Decoder.run_bind_ok (hread _), ← Decoder.run_map]
  exact hgrid

end

/-- A shape whose dimensions in front of the first 0 have a product that fits is taken, by the
constructors with just as many elements as all dimensions multiply to and by the decoders whatever
spelling the dimensions have; any other is said to overflow, wrongly so only if a 0 follows and
there are no elements. The decoders refuse one thing more: arrays as elements that hold more than
can be counted between them. -/
theorem fills_shape (shape : List Nat) :
    (∀ {α : Type} (data : List α), ofData shape data =
      if (leading shape).prod < sizeLimit then
        if shape.prod = data.length then .ok ⟨shape, data⟩
        else .error (.shapeMismatch shape shape.prod data.length)
      else .error (.shapeOverflow shape)) ∧
    (∀ {α : Type} (data : List α),
      ((∃ grid, ofData shape data = .ok grid) ↔ shape.prod = data.length) ↔
        (leading shape).prod < sizeLimit ∨ shape.prod ≠ data.length) ∧
    (0 ∉ shape → shape.prod < sizeLimit → (leading shape).prod < sizeLimit) ∧
    ∀ (item : Ty) (data written : List Value) (dims rest : Bytes),
      List.Forall₂ item.Lists data written → shape.prod = data.length →
      (Decoder.varint.times shape.length).runAll dims = .ok shape →
        Settles item shape data rest ((Ty.grid item shape.length).codec.read.run
          (dims ++ (written.flatMap item.codec.encode ++ rest))) ∧
        ∀ rank, Decoder.varint.runAll rank = .ok shape.length →
          Settles item shape data rest ((Ty.rankedGrid item).codec.read.run
            (rank ++ (dims ++ (written.flatMap item.codec.encode ++ rest)))) := by
  refine ⟨fun data => ofData_eq shape data, fun data => ofData_exact shape data,
    fun hzero hfits => ?_, fun item data written dims rest hforms hsize hdims => ?_⟩
  · rwa [leading_eq_self hzero]
  · exact ⟨settles_grid hforms hsize hdims rest,
      fun rank hrank => settles_rankedGrid hforms hsize hrank hdims rest⟩

/-- Two booleans in a shape of 2 and 1, the 2 spelled with a byte too many; and no element at all in
a shape that begins with 0. -/
theorem fills_shape_flags :
    (∃ grid, ofData [2, 1] [true, false] = .ok grid) ∧
    ofData [0, 18446744073709551615, 2] ([] : List Bool) =
      .ok ⟨[0, 18446744073709551615, 2], []⟩ ∧
    (Ty.grid .bool 2).codec.read.run [130, 0, 1, 1, 0, 9] =
      .ok (.grid [2, 1] [.bool true, .bool false], [9]) ∧
    (Ty.rankedGrid .bool).codec.read.run [2, 130, 0, 1, 1, 0, 9] =
      .ok (.grid [2, 1] [.bool true, .bool false], [9]) := by
  obtain ⟨-, hexact, hleading, hdecode⟩ := fills_shape [2, 1]
  obtain ⟨hempty, -⟩ := fills_shape [0, 18446744073709551615, 2]
  have hdims : (Decoder.varint.times 2).runAll [130, 0, 1] = .ok [2, 1] := by decide
  have hrank : Decoder.varint.runAll [2] = .ok 2 := by decide
  have hforms : List.Forall₂ Ty.bool.Lists [.bool true, .bool false] [.bool true, .bool false] :=
    .cons ⟨true, rfl, rfl⟩ (.cons ⟨false, rfl, rfl⟩ .nil)
  have hfits : (leading [2, 1]).prod < sizeLimit := hleading (by decide) (by decide)
  obtain ⟨hgrid, hranked⟩ := hdecode .bool _ _ _ [9] hforms (by decide) hdims
  refine ⟨((hexact [true, false]).mpr (.inl hfits)).mpr rfl, ?_,
    hgrid.taken hfits trivial, (hranked [2] hrank).taken hfits trivial⟩
  rw [hempty, if_pos (by decide), if_pos (by decide)]

/-- No element is just what a shape with a 0 needs, but behind a product that does not fit the 0 is
not looked at. In front of it, it is. -/
theorem ofData_late_zero :
    [18446744073709551615, 2, 0].prod = ([] : List Value).length ∧
    ofData [18446744073709551615, 2, 0] ([] : List Value) =
      .error (.shapeOverflow [18446744073709551615, 2, 0]) ∧
    ofData [0, 18446744073709551615, 2] ([] : List Value) =
      .ok ⟨[0, 18446744073709551615, 2], []⟩ ∧
    (Ty.grid (.int .i32) 3).codec.read.runAll
        ([255, 255, 255, 255, 255, 255, 255, 255, 255, 1] ++ [2] ++ [0]) =
      .error (.format (.shapeOverflow [18446744073709551615, 2, 0])) :=
  ⟨rfl, rfl, rfl, rfl⟩

end Grid

end TypedStream
