import TypedStream.Proofs.Codec.Carries

/-!
# Blocks

A type of fixed layout puts a run down as one block and reads it by chunks. The chunks do not
show: the block of a run reads back as the run, whatever its length, and it holds the encodings
of the values one after the other.
-/

namespace TypedStream

namespace Layout

/-- The image of a value has the layout's size and is the image of that value only. -/
def Lays (layout : Layout α) (value : α) : Prop :=
  (layout.image value).length = layout.size ∧ layout.ofImage (layout.image value) = value

theorem block_append (layout : Layout α) (values more : List α) :
    layout.block (values ++ more) = layout.block values ++ layout.block more :=
  List.flatMap_append

theorem length_block {layout : Layout α} {values : List α} (h : ∀ v ∈ values, layout.Lays v) :
    (layout.block values).length = values.length * layout.size := by
  induction values with
  | nil => simp [block]
  | cons v vs ih =>
    have hv := (h v (by simp)).1
    have hvs := ih fun u hu => h u (List.mem_cons_of_mem _ hu)
    simp only [block, List.flatMap_cons, List.length_append, List.length_cons] at hvs ⊢
    rw [hv, hvs, Nat.succ_mul, Nat.add_comm]

theorem split_block {layout : Layout α} {values : List α} (h : ∀ v ∈ values, layout.Lays v)
    (found : List α) :
    layout.split values.length (layout.block values) found = values.reverse ++ found := by
  induction values generalizing found with
  | nil => rfl
  | cons v vs ih =>
    obtain ⟨hsize, hof⟩ := h v (by simp)
    have hfront : (layout.block (v :: vs)).take layout.size = layout.image v := by
      rw [← hsize]
      simp [block]
    have hback : (layout.block (v :: vs)).drop layout.size = layout.block vs := by
      rw [← hsize]
      simp [block]
    simp only [List.length_cons, split, hfront, hback, hof]
    rw [ih fun u hu => h u (List.mem_cons_of_mem _ hu)]
    simp

theorem run_collect {layout : Layout α} {values : List α} (h : ∀ v ∈ values, layout.Lays v)
    (found : List α) (rest : Bytes) :
    (layout.collect values.length found).run (layout.block values ++ rest) =
      .ok (found.reverse ++ values, rest) := by
  -- Each request takes up at least one value, so the induction is on the number of values.
  induction hn : values.length using Nat.strongRecOn generalizing values found with
  | ind count ih =>
    subst hn
    unfold collect
    split
    · next h0 =>
      have : values = [] := List.eq_nil_of_length_eq_zero h0
      subst this
      simp [block]
    next h0 =>
    have hnow : min values.length layout.perChunk ≤ values.length := Nat.min_le_left _ _
    have hpos : 0 < min values.length layout.perChunk := by
      have : 0 < layout.perChunk := Nat.lt_of_lt_of_le Nat.one_pos (Nat.le_max_left _ _)
      omega
    generalize min values.length layout.perChunk = now at hnow hpos
    have hfront : ∀ v ∈ values.take now, layout.Lays v := fun v hv => h v (List.mem_of_mem_take hv)
    have hback : ∀ v ∈ values.drop now, layout.Lays v := fun v hv => h v (List.mem_of_mem_drop hv)
    have hlen : (values.take now).length = now := by
      rw [List.length_take]
      omega
    have hblock : (layout.block (values.take now)).length = now * layout.size := by
      rw [length_block hfront, hlen]
    have hsplit : layout.block values ++ rest =
        layout.block (values.take now) ++ (layout.block (values.drop now) ++ rest) := by
      rw [← List.append_assoc, ← block_append, List.take_append_drop]
    have hread := split_block hfront found
    rw [hlen] at hread
    have hrest := ih (values.drop now).length (by rw [List.length_drop]; omega) hback
      ((values.take now).reverse ++ found) rfl
    rw [List.length_drop] at hrest
    dsimp only
    rw [hsplit, ← hblock, Decoder.run_need_append, hread, hrest]
    simp

theorem run_block {layout : Layout α} {values : List α} (h : ∀ v ∈ values, layout.Lays v)
    (rest : Bytes) :
    (layout.run values.length).run (layout.block values ++ rest) = .ok (values, rest) := by
  simpa [run] using run_collect h [] rest

end Layout

theorem forall₂_same {p : α → Prop} {vs ws : List α}
    (h : List.Forall₂ (fun v w => v = w ∧ p v) vs ws) : vs = ws ∧ ∀ v ∈ vs, p v := by
  induction h with
  | nil => exact ⟨rfl, by simp⟩
  | cons hv _ ih =>
    obtain ⟨rfl, hp⟩ := hv
    obtain ⟨rfl, hall⟩ := ih
    exact ⟨rfl, List.forall_mem_cons.mpr ⟨hp, hall⟩⟩

namespace Codec

theorem flatten_runWrites_bulk {codec : Codec α} {layout : Layout α}
    (himage : ∀ v, layout.image v = codec.encode v) (values : List α) :
    ((codec.bulk layout).runWrites values).flatten =
      values.flatMap (codec.bulk layout).encode := by
  show [layout.block values].flatten = _
  rw [List.flatten_singleton]
  exact List.flatMap_congr fun v _ => himage v

/-- A codec whose encodings are the images of a layout carries blocks. -/
theorem Carries.bulk {codec : Codec α} {layout : Layout α} {lists : α → α → Prop}
    {fits : Nat → Prop} (h : codec.Carries lists fits)
    (himage : ∀ v, layout.image v = codec.encode v)
    (hlays : ∀ {v w}, lists v w → v = w ∧ layout.Lays v) (fits' : Nat → Prop) :
    (codec.bulk layout).Carries lists fits' where
  read := h.read
  readRun := by
    intro vs ws hall _ rest
    obtain ⟨hsame, hfits⟩ := forall₂_same (hall.imp fun _ _ hv => hlays hv)
    have hblock : layout.block vs = ws.flatMap (codec.bulk layout).encode := by
      rw [hsame]
      exact List.flatMap_congr fun v _ => himage v
    rw [← hblock]
    exact Layout.run_block hfits rest
  runWrites := flatten_runWrites_bulk himage

end Codec

end TypedStream
