import Mathlib.Data.Option.Basic
import TypedStream.Grid
import TypedStream.Proofs.Assoc
import TypedStream.Proofs.Codec.Scalars

/-!
# Codecs of compound types

If the codecs of its parts carry what they should, so does the codec of a compound type: options,
lists, fixed arrays, maps, row-major arrays, records, unions, enums and types that refer to
themselves.
-/

namespace TypedStream.Codec

open Std (TransOrd)

-- ---------------------------------------------------------------------------
-- Options, wrappers, lists and fixed arrays
-- ---------------------------------------------------------------------------

theorem Carries.option {codec : Codec α} {lists : α → α → Prop} {fits : Nat → Prop}
    (h : codec.Carries lists fits) (fits' : Nat → Prop) :
    codec.option.Carries (Option.Rel lists) fits' := by
  refine carries_single ?_ fits'
  intro v w hv rest
  cases hv with
  | none =>
    rw [List.flatten_singleton, List.singleton_append,
      Decoder.run_bind_ok (Decoder.run_byte_cons _ _)]
    rfl
  | some hv =>
    rw [List.flatten_cons, List.singleton_append, List.cons_append,
      Decoder.run_bind_ok (Decoder.run_byte_cons _ _)]
    exact (Decoder.run_bind_ok (h.read hv rest)).trans rfl

theorem Carries.wrapped {codec : Codec α} {lists : α → α → Prop} {fits : Nat → Prop}
    (h : codec.Carries lists fits) (fits' : Nat → Prop) :
    codec.wrapped.Carries lists fits' := by
  refine carries_single ?_ fits'
  intro v w hv rest
  exact h.read hv rest

theorem Carries.list {codec : Codec α} {lists : α → α → Prop} {fits : Nat → Prop}
    (h : codec.Carries lists fits) (fits' : Nat → Prop) :
    codec.list.Carries
      (fun vs ws => List.Forall₂ lists vs ws ∧ vs.length < sizeLimit ∧ fits vs.length) fits' := by
  refine carries_single ?_ fits'
  rintro vs ws ⟨hall, hlen, hfits⟩ rest
  rw [← hall.length_eq, List.flatten_cons, List.append_assoc,
    Decoder.run_bind_ok (Decoder.run_varint hlen _), h.runWrites]
  exact h.readRun hall hfits rest

theorem groups_flatten {n : Nat} {arrays : List (List α)} (h : ∀ a ∈ arrays, a.length = n)
    (found : List (List α)) :
    groups n arrays.length arrays.flatten found = found.reverse ++ arrays := by
  induction arrays generalizing found with
  | nil => simp [groups]
  | cons a as ih =>
    have ha := h a (by simp)
    simp only [List.length_cons, groups, List.flatten_cons]
    rw [← ha, List.take_left, List.drop_left, ha,
      ih (fun b hb => h b (List.mem_cons_of_mem _ hb))]
    simp

theorem forall₂_flatten {lists : α → α → Prop} {vss wss : List (List α)}
    (h : List.Forall₂ (List.Forall₂ lists) vss wss) :
    List.Forall₂ lists vss.flatten wss.flatten := by
  induction h with
  | nil => exact .nil
  | cons hv _ ih => exact List.rel_append hv ih

theorem flatMap_encode_array {codec : Codec α}
    (h : ∀ values, (codec.runWrites values).flatten = values.flatMap codec.encode) (n : Nat)
    (arrays : List (List α)) :
    arrays.flatMap (codec.array n).encode = arrays.flatten.flatMap codec.encode := by
  rw [List.flatMap_def, List.flatMap_def, List.map_flatten, List.flatten_flatten, List.map_map]
  congr 1
  refine List.map_congr_left fun ws _ => ?_
  exact (h ws).trans List.flatMap_def

/-- Arrays of a length that is an admitted run. Runs of arrays are runs of their values. -/
theorem Carries.array {codec : Codec α} {lists : α → α → Prop} {fits : Nat → Prop}
    (h : codec.Carries lists fits) (n : Nat) :
    (codec.array n).Carries
      (fun vs ws => List.Forall₂ lists vs ws ∧ vs.length = n ∧ fits n)
      (fun count => count * n < sizeLimit ∧ fits (count * n)) where
  read := by
    rintro vs ws ⟨hall, hlen, hfits⟩ rest
    rw [← hlen] at hfits
    have hr := h.readRun hall hfits rest
    rw [← h.runWrites, hlen] at hr
    exact hr
  readRun := by
    rintro vss wss hall ⟨hlimit, hfits⟩ rest
    have hrel : List.Forall₂ (List.Forall₂ lists) vss wss := hall.imp fun _ _ hv => hv.1
    have hlens : ∀ vs ∈ vss, vs.length = n := by
      intro vs hvs
      obtain ⟨i, hi, rfl⟩ := List.getElem_of_mem hvs
      exact (hall.get hi (hall.length_eq ▸ hi)).2.1
    have hflat : vss.flatten.length = vss.length * n := by
      rw [List.length_flatten, List.map_congr_left hlens, List.map_const', List.sum_replicate_nat]
    have hr := h.readRun (forall₂_flatten hrel) (by rwa [hflat]) rest
    rw [hflat] at hr
    show (if vss.length * n < sizeLimit then _ else _ : Decoder _).run _ = _
    rw [if_pos hlimit, flatMap_encode_array h.runWrites, Decoder.run_map_ok hr,
      groups_flatten hlens]
    rfl
  runWrites wss :=
    (h.runWrites wss.flatten).trans (flatMap_encode_array h.runWrites n wss).symm

-- ---------------------------------------------------------------------------
-- Maps
-- ---------------------------------------------------------------------------

theorem Carries.entry {key : Codec κ} {value : Codec α} {keys : κ → κ → Prop}
    {values : α → α → Prop} {fits fits' : Nat → Prop} (hk : key.Carries keys fits)
    (hv : value.Carries values fits') (fits'' : Nat → Prop) :
    (Codec.entry key value).Carries (fun e f => keys e.1 f.1 ∧ values e.2 f.2) fits'' := by
  refine carries_single ?_ fits''
  rintro ⟨k, v⟩ ⟨k', v'⟩ ⟨hkey, hvalue⟩ rest
  rw [List.flatten_append, List.append_assoc, flatten_writes, flatten_writes,
    Decoder.run_bind_ok (hk.read hkey _), Decoder.run_bind_ok (hv.read hvalue rest),
    Decoder.run_pure]

theorem encode_entry (key : Codec κ) (value : Codec α) (e : κ × α) :
    (entry key value).encode e = key.encode e.1 ++ value.encode e.2 := List.flatten_append

theorem encode_assoc [Ord κ] (key : Codec κ) (value : Codec α) (es : List (κ × α)) :
    (assoc key value).encode es =
      TypedStream.varint es.length ++ es.flatMap (entry key value).encode :=
  congrArg _ (flatten_runWrites_single _ _ es)

/-- Entries are read in any order, and there may be several with one key. -/
theorem Carries.run_assoc [Ord κ] {key : Codec κ} {value : Codec α} {keys : κ → κ → Prop}
    {values : α → α → Prop} {fits fits' : Nat → Prop} (hk : key.Carries keys fits)
    (hv : value.Carries values fits') {es fs : List (κ × α)}
    (hall : List.Forall₂ (fun e f => keys e.1 f.1 ∧ values e.2 f.2) es fs)
    (hlen : es.length < sizeLimit) (rest : Bytes) :
    (Codec.assoc key value).read.run ((Codec.assoc key value).encode fs ++ rest) =
      .ok (Assoc.ofList es, rest) := by
  have hentry := hk.entry hv (fun _ => True)
  rw [encode_assoc, ← hall.length_eq, List.append_assoc]
  refine (Decoder.run_bind_ok (Decoder.run_varint hlen _)).trans (Decoder.run_map_ok ?_)
  exact Decoder.run_times (hall.imp fun _ _ he => hentry.read he) rest

/-- Maps of 64-bit size, their entries listed in any order. -/
theorem Carries.assoc [Ord κ] [TransOrd κ] {key : Codec κ} {value : Codec α}
    {keys : κ → κ → Prop} {values : α → α → Prop} {fits fits' : Nat → Prop}
    (hk : key.Carries keys fits) (hv : value.Carries values fits') (fits'' : Nat → Prop) :
    (Codec.assoc key value).Carries
      (fun es fs => Assoc.Ascending es ∧ es.length < sizeLimit ∧
        ∃ listing, List.Perm listing es ∧
          List.Forall₂ (fun e f => keys e.1 f.1 ∧ values e.2 f.2) listing fs) fits'' := by
  refine carries_single ?_ fits''
  rintro es fs ⟨hasc, hlen, listing, hperm, hall⟩ rest
  rw [← hperm.length_eq] at hlen
  rw [← Assoc.ofList_of_perm hasc hperm]
  exact hk.run_assoc hv hall hlen rest

theorem Carries.hashed [Ord κ] {key : Codec κ} {value : Codec α}
    {lists : List (κ × α) → List (κ × α) → Prop} {fits : Nat → Prop}
    (h : (Codec.assoc key value).Carries lists fits) (order : Assoc.HashOrder κ α)
    (fits' : Nat → Prop) :
    (Codec.hashed order key value).Carries (fun es fs => ∃ m, es = order.arrange m ∧ lists m fs)
      fits' := by
  refine carries_single ?_ fits'
  rintro _ fs ⟨m, rfl, hl⟩ rest
  exact Decoder.run_map_ok (h.read hl rest)

-- ---------------------------------------------------------------------------
-- Row-major arrays
-- ---------------------------------------------------------------------------

theorem elementCount_of_ofData {g : Grid α}
    (h : Grid.ofData g.shape g.data = .ok g) : Grid.elementCount g.shape = .ok g.data.length := by
  simp only [Grid.ofData, bind, Except.bind] at h
  split at h
  · cases h
  · next count hc =>
    split at h
    · next he => rw [hc, he]
    · cases h

theorem run_shape {shape : List Nat} (h : ∀ d ∈ shape, d < sizeLimit) (rest : Bytes) :
    (Decoder.varint.times shape.length).run ((shape.map TypedStream.varint).flatten ++ rest) =
      .ok (shape, rest) := by
  have hall : List.Forall₂ (fun v w => ∀ rest,
      Decoder.varint.run (TypedStream.varint w ++ rest) = .ok (v, rest)) shape shape :=
    List.forall₂_same.mpr fun d hd rest => Decoder.run_varint (h d hd) rest
  rw [← List.flatMap_def]
  exact Decoder.run_times hall rest

theorem Carries.run_readGrid {codec : Codec α} {lists : α → α → Prop} {fits : Nat → Prop}
    (h : codec.Carries lists fits) {g : Grid α} {written : List α}
    (hg : Grid.ofData g.shape g.data = .ok g) (hall : List.Forall₂ lists g.data written)
    (hfits : fits g.data.length) (rest : Bytes) :
    (readGrid codec g.shape).run ((codec.runWrites written).flatten ++ rest) = .ok (g, rest) := by
  rw [readGrid, elementCount_of_ofData hg, h.runWrites]
  exact Decoder.run_map_ok (h.readRun hall hfits rest)

theorem Carries.grid {codec : Codec α} {lists : α → α → Prop} {fits : Nat → Prop}
    (h : codec.Carries lists fits) (rank : Nat) (fits' : Nat → Prop) :
    (Codec.grid rank codec).Carries
      (fun g g' => Grid.ofData g.shape g.data = .ok g ∧ g'.shape = g.shape ∧
        g.shape.length = rank ∧ (∀ d ∈ g.shape, d < sizeLimit) ∧
        List.Forall₂ lists g.data g'.data ∧ fits g.data.length) fits' := by
  refine carries_single ?_ fits'
  rintro g g' ⟨hg, hshape, hrank, hdims, hall, hfits⟩ rest
  rw [List.flatten_append, List.append_assoc, hshape, ← hrank,
    Decoder.run_bind_ok (run_shape hdims _)]
  exact h.run_readGrid hg hall hfits rest

theorem Carries.rankedGrid {codec : Codec α} {lists : α → α → Prop} {fits : Nat → Prop}
    (h : codec.Carries lists fits) (fits' : Nat → Prop) :
    (Codec.rankedGrid codec).Carries
      (fun g g' => Grid.ofData g.shape g.data = .ok g ∧ g'.shape = g.shape ∧
        g.shape.length < sizeLimit ∧ (∀ d ∈ g.shape, d < sizeLimit) ∧
        List.Forall₂ lists g.data g'.data ∧ fits g.data.length) fits' := by
  refine carries_single ?_ fits'
  rintro g g' ⟨hg, hshape, hrank, hdims, hall, hfits⟩ rest
  rw [List.flatten_cons, List.flatten_append, List.append_assoc, List.append_assoc, Grid.rank,
    hshape, Decoder.run_bind_ok (Decoder.run_varint hrank _),
    Decoder.run_bind_ok (run_shape hdims _)]
  exact h.run_readGrid hg hall hfits rest

-- ---------------------------------------------------------------------------
-- Records, unions and enums
-- ---------------------------------------------------------------------------

theorem carries_nil (fits : Nat → Prop) :
    (nil : Codec (List α)).Carries (fun vs ws => vs = [] ∧ ws = []) fits := by
  refine carries_single ?_ fits
  rintro vs ws ⟨rfl, rfl⟩ rest
  rfl

theorem encode_cons (head : Codec α) (tail : Codec (List α)) (v : α) (vs : List α) :
    (cons head tail).encode (v :: vs) = head.encode v ++ tail.encode vs := List.flatten_append

theorem encode_single (head : Codec α) (v : α) : (cons head nil).encode [v] = head.encode v := by
  rw [encode_cons]
  exact List.append_nil _

def ListsCons (head : α → α → Prop) (tail : List α → List α → Prop) : List α → List α → Prop
  | v :: vs, w :: ws => head v w ∧ tail vs ws
  | _, _ => False

theorem Carries.cons {head : Codec α} {tail : Codec (List α)} {heads : α → α → Prop}
    {tails : List α → List α → Prop} {fits fits' : Nat → Prop} (hh : head.Carries heads fits)
    (ht : tail.Carries tails fits') (fits'' : Nat → Prop) :
    (Codec.cons head tail).Carries (ListsCons heads tails) fits'' := by
  refine carries_single ?_ fits''
  intro vs ws h rest
  cases vs with
  | nil => cases h
  | cons v vs =>
    cases ws with
    | nil => cases h
    | cons w ws =>
      rw [List.flatten_append, List.append_assoc, flatten_writes, flatten_writes,
        Decoder.run_bind_ok (hh.read h.1 _), Decoder.run_bind_ok (ht.read h.2 rest),
        Decoder.run_pure]

theorem run_readIndex {index alternatives : Nat} (h : index < alternatives)
    (hs : index < sizeLimit) (rest : Bytes) :
    (readIndex alternatives).run (TypedStream.varint index ++ rest) = .ok (index, rest) := by
  rw [readIndex, Decoder.run_bind_ok (Decoder.run_varint hs rest), if_pos h, Decoder.run_pure]

theorem Carries.union {alternatives : List (Codec α)} {lists : Nat → α → α → Prop}
    {fits : Nat → Prop}
    (h : ∀ i (codec : Codec α), alternatives[i]? = some codec → codec.Carries (lists i) fits)
    (type : String) (fits' : Nat → Prop) :
    (Codec.union type alternatives).Carries
      (fun v w => v.1 = w.1 ∧ v.1 < alternatives.length ∧ v.1 < sizeLimit ∧ lists v.1 v.2 w.2)
      fits' := by
  refine carries_single ?_ fits'
  rintro ⟨i, v⟩ ⟨j, w⟩ ⟨rfl, hlt, hsize, hl⟩ rest
  dsimp only at hlt hsize hl ⊢
  have hc : alternatives[i]? = some alternatives[i] := List.getElem?_eq_getElem hlt
  have hread := (h i _ hc).read hl rest
  rw [List.flatten_cons, List.append_assoc, Decoder.run_bind_ok (run_readIndex hlt hsize _)]
  simp only [hc, Option.map_some, Option.getD_some]
  rw [flatten_writes, Decoder.run_bind_ok hread, Decoder.run_pure]

/-- A place whose integer is not cast to what an earlier one is cast to. -/
theorem carries_enum (type : String) (kind : IntKind) (values : List Int) (fits : Nat → Prop) :
    (enum type kind values).Carries
      (fun place place' => place = place' ∧ ∃ v, values[place]? = some v ∧
        values.findIdx? (kind.wrap · == kind.wrap v) = some place) fits := by
  refine carries_single ?_ fits
  rintro place _ ⟨rfl, v, hv, hfind⟩ rest
  have hread := (carries_int kind fun _ => True).read ⟨rfl, kind.holds_wrap v⟩ rest
  rw [hv, Option.getD_some, flatten_writes, Decoder.run_bind_ok hread, hfind, Decoder.run_pure]

-- ---------------------------------------------------------------------------
-- Self-reference
-- ---------------------------------------------------------------------------

theorem Carries.delayed {codec : Unit → Codec α} {lists : α → α → Prop} {fits : Nat → Prop}
    (h : (codec ()).Carries lists fits) : (delayed codec).Carries lists fits where
  read hv rest := (Decoder.run_need_append _ [] _).trans (h.read hv rest)
  readRun hall hn rest := (Decoder.run_need_append _ [] _).trans (h.readRun hall hn rest)
  runWrites := h.runWrites

/-- What nests at most `depth` levels. -/
def Nests (body : (α → α → Prop) → α → α → Prop) : (depth : Nat) → α → α → Prop
  | 0 => fun _ _ => False
  | depth + 1 => body (Nests body depth)

/-- A codec that is unrolled a number of times carries what nests no deeper, provided that the
body puts no bound on the length of runs. -/
theorem carries_unrolled {body : (Unit → Codec α) → Codec α}
    {lists : (α → α → Prop) → α → α → Prop} {fits : Nat → Prop} (hzero : fits 0)
    (h : ∀ inner inner', (inner ()).Carries inner' (fun _ => True) →
      (body inner).Carries (lists inner') fits) (levels : Nat) :
    (unrolled body levels).Carries (fun v w => (∀ n, fits n) ∧ Nests lists levels v w)
      fun _ => True := by
  -- Without a bound on runs each level carries what the body makes of the level below; with one,
  -- no value is carried, and the induction needs the empty run only.
  by_cases hfits : ∀ n, fits n
  · have hall : (unrolled body levels).Carries (Nests lists levels) fun _ => True := by
      induction levels with
      | zero => exact carries_single (fun hv => hv.elim) _
      | succ levels ih => exact (h _ _ ih).mono id fun _ => hfits _
    exact hall.mono And.right id
  · have hnone : (unrolled body levels).Carries (fun _ _ => False) fun _ => True := by
      induction levels with
      | zero => exact carries_single (fun hv => hv.elim) _
      | succ levels ih => exact (h _ _ ih).empty hzero _
    exact hnone.mono (fun hv => hfits hv.1) id

end TypedStream.Codec
