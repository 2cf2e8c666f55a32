import Mathlib.Data.Set.Card
import TypedStream.Proofs.Ty.RoundTrip
import TypedStream.Proofs.Value.Order

/-!
# Maps in any order

Entries are read in whatever order they are listed, and of those that share a key the last counts
(`Assoc.Keeps`). Which map they make therefore does not depend on their order unless keys are
repeated, and the map has one entry for each key, in ascending order, when it is written again
(`Ty.maps_keep_last`). The count in front is that of the entries listed on reading and that of the
keys on writing.
-/

namespace TypedStream

open Std (TransOrd LawfulEqOrd)

-- ---------------------------------------------------------------------------
-- Maps of lists
-- ---------------------------------------------------------------------------

namespace Assoc

/-- `m` has an entry for each key of a list, with the value that stands there last. -/
structure Keeps [Ord κ] (m es : List (κ × α)) : Prop where
  ascending : m.Pairwise fun a b => compare a.1 b.1 = .lt
  mem_iff : ∀ {key value}, (key, value) ∈ m ↔
    ∃ before after, es = before ++ (key, value) :: after ∧ ∀ e ∈ after, e.1 ≠ key
  length_eq : m.length = {key | key ∈ es.map Prod.fst}.ncard

variable [Ord κ] [TransOrd κ] [LawfulEqOrd κ]

end Assoc

-- ---------------------------------------------------------------------------
-- Codecs
-- ---------------------------------------------------------------------------

namespace Codec

/-- A count and then as many pairs. -/
def listing (key : Codec κ) (value : Codec α) (fs : List (κ × α)) : Bytes :=
  TypedStream.varint fs.length ++ fs.flatMap fun f => key.encode f.1 ++ value.encode f.2

/-- Any list of entries, put down in their forms, is read as the map of their last values, whose
entries are then listed as `arrange` has them. -/
structure KeepsLast [Ord κ] (codec : Codec β) (ofEntries : List (κ × α) → β)
    (arrange : List (κ × α) → List (κ × α)) (listing : List (κ × α) → Bytes)
    (forms : κ × α → κ × α → Prop) : Prop where
  arranges : ∀ m, (arrange m).Perm m
  reads : ∀ {es fs}, List.Forall₂ forms es fs → es.length < sizeLimit →
    ∃ m, Assoc.Keeps m es ∧
      ∀ rest, codec.read.run (listing fs ++ rest) = .ok (ofEntries (arrange m), rest)
  any_order : ∀ {es es' fs fs'}, List.Forall₂ forms es fs → List.Forall₂ forms es' fs' →
    es.length < sizeLimit → (es.map Prod.fst).Nodup → es'.Perm es →
    ∀ rest, codec.read.run (listing fs' ++ rest) = codec.read.run (listing fs ++ rest)
  /-- What is written again are the entries of the map, as many as there are keys. -/
  rewrites : ∀ {es fs m}, List.Forall₂ forms es fs → Assoc.Keeps m es →
    (∃ gs, List.Forall₂ forms (arrange m) gs) ∧
    ∀ gs, List.Forall₂ forms (arrange m) gs → codec.encode (ofEntries gs) = listing gs ∧
      gs.length = {key | key ∈ es.map Prod.fst}.ncard

variable [Ord κ] {key : Codec κ} {value : Codec α}

section
variable [TransOrd κ] [LawfulEqOrd κ] {keys : κ → κ → Prop} {values : α → α → Prop}
  {fits fits' : Nat → Prop}

end

theorem KeepsLast.xmap {codec : Codec (List (κ × α))} {arrange : List (κ × α) → List (κ × α)}
    {listing : List (κ × α) → Bytes} {forms : κ × α → κ × α → Prop}
    (h : codec.KeepsLast id arrange listing forms) {ofEntries : List (κ × α) → β}
    {entries : β → List (κ × α)} (hentries : ∀ es, entries (ofEntries es) = es) :
    (codec.xmap ofEntries entries).KeepsLast ofEntries arrange listing forms := by
  refine ⟨h.arranges, fun hall hlen => ?_, fun hall hall' hlen hnodup hperm rest => ?_,
    fun hall hkeeps => ⟨(h.rewrites hall hkeeps).1, fun gs hgs => ?_⟩⟩
  · obtain ⟨m, hkeeps, hread⟩ := h.reads hall hlen
    exact ⟨m, hkeeps, fun rest => Decoder.run_map_ok (hread rest)⟩
  · show (ofEntries <$> codec.read).run _ = (ofEntries <$> codec.read).run _
    rw [Decoder.run_map, Decoder.run_map, h.any_order hall hall' hlen hnodup hperm]
  · have hwritten := (h.rewrites hall hkeeps).2 gs hgs
    show codec.encode (entries (ofEntries gs)) = _ ∧ _
    rwa [hentries]

end Codec

end TypedStream
