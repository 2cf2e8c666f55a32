import Mathlib.Data.List.Induction
import TypedStream.Proofs.Order.Writing

/-!
# Segments of a payload

What a writer puts down behind the header falls into segments: values, counts of items, items and
ends of streams. Where a step's first segment and its items lie, and how many items come before each
count, is told by what stands in front of the segments of one sort (`fronts`); segments behind add
to what those in front tell. In what calls put down, every count has items behind it, so the counts
of a step come before ever later items (`WriteCall.blocksIn_sorted`).
-/

namespace TypedStream

-- ---------------------------------------------------------------------------
-- Places in a list
-- ---------------------------------------------------------------------------

/-- Behind `front` comes the element with `p` that has `k` others in front of it. -/
def Nth (p : α → Bool) (k : Nat) (list front : List α) : Prop :=
  ∃ found back, list = front ++ found :: back ∧ p found = true ∧ front.countP p = k

/-- What stands in front of each element with `p`. -/
def fronts (p : α → Bool) : List α → List (List α)
  | [] => []
  | a :: list => (if p a then [[]] else []) ++ (fronts p list).map (a :: ·)

section
variable {p : α → Bool} {k : Nat} {a : α} {list front : List α}

theorem nth_cons_nil : Nth p k (a :: list) [] ↔ k = 0 ∧ p a = true := by
  constructor
  · rintro ⟨found, back, heq, hp, rfl⟩
    obtain ⟨rfl, -⟩ := List.cons.inj heq
    exact ⟨rfl, hp⟩
  · rintro ⟨rfl, hp⟩
    exact ⟨a, list, rfl, hp, rfl⟩

theorem nth_cons_cons {b : α} : Nth p k (a :: list) (b :: front) ↔
    (∃ k', k = k' + (if p a then 1 else 0) ∧ Nth p k' list front) ∧ a = b := by
  constructor
  · rintro ⟨found, back, heq, hp, rfl⟩
    obtain ⟨rfl, rfl⟩ := List.cons.inj heq
    exact ⟨⟨_, List.countP_cons, found, back, rfl, hp, rfl⟩, rfl⟩
  · rintro ⟨⟨k', rfl, found, back, rfl, hp, rfl⟩, rfl⟩
    exact ⟨found, back, rfl, hp, List.countP_cons⟩

theorem getElem?_fronts : (fronts p list)[k]? = some front ↔ Nth p k list front := by
  induction list generalizing k front with
  | nil =>
    constructor
    · intro h
      cases h
    · rintro ⟨found, back, heq, -, -⟩
      cases front <;> cases heq
  | cons a list ih =>
    cases hp : p a <;> cases front <;> cases k <;>
      simp [fronts, hp, nth_cons_nil, nth_cons_cons, ih]

theorem fronts_append (p : α → Bool) (list more : List α) :
    fronts p (list ++ more) = fronts p list ++ (fronts p more).map (list ++ ·) := by
  induction list with
  | nil => simp [fronts]
  | cons a list ih =>
    simp only [List.cons_append, fronts, ih, List.map_append, List.map_map, List.append_assoc]
    rfl

theorem fronts_eq_nil (h : ∀ a ∈ list, p a = false) : fronts p list = [] := by
  induction list with
  | nil => rfl
  | cons a list ih =>
    obtain ⟨ha, hlist⟩ := List.forall_mem_cons.mp h
    simp [fronts, ha, ih hlist]

theorem length_fronts (p : α → Bool) (list : List α) : (fronts p list).length = list.countP p := by
  induction list with
  | nil => rfl
  | cons a list ih => cases hp : p a <;> simp [fronts, hp, ih]

end

-- ---------------------------------------------------------------------------
-- Segments
-- ---------------------------------------------------------------------------

inductive Role where
  | value
  | count
  | item
  | ending
  deriving DecidableEq, Repr

/-- What a call puts down for a step at once. -/
structure Segment where
  step : Nat
  role : Role
  bytes : Bytes
  deriving DecidableEq, Repr

/-- A block: the count of its items, and each item. -/
def Segment.block (type : Ty) (i : Nat) (values : List Value) : List Segment :=
  ⟨i, .count, varint values.length⟩ :: values.map (⟨i, .item, type.codec.encode ·⟩)

/-- The segments that an accepted call puts down, in this order. -/
def WriteCall.segments : WriteCall → List Segment
  | step type i value => [⟨i, .value, type.codec.encode value⟩]
  | item type i value => Segment.block type i [value]
  | items _ _ [] => []
  | items type i values => Segment.block type i values
  | endStream i => [⟨i, .ending, varint 0⟩]
  | flush => []

namespace Segment

def ofStep (i : Nat) (segment : Segment) : Bool := segment.step == i

def isItem (i : Nat) (segment : Segment) : Bool := segment.step == i && segment.role == .item

def isCount (i : Nat) (segment : Segment) : Bool := segment.step == i && segment.role == .count

def size (segments : List Segment) : Nat := (segments.flatMap bytes).length

theorem size_append (segments more : List Segment) :
    size (segments ++ more) = size segments + size more := by
  rw [size, List.flatMap_append, List.length_append]
  rfl

/-- Where the first segment of a step is, in segments that start at `origin`. -/
def startIn (origin i : Nat) (segments : List Segment) : Option Nat :=
  (fronts (ofStep i) segments).head?.map fun front => origin + size front

def itemsIn (origin i : Nat) (segments : List Segment) : List Nat :=
  (fronts (isItem i) segments).map fun front => origin + size front

/-- How many items there are in front of each count. -/
def blocksIn (i : Nat) (segments : List Segment) : List Nat :=
  (fronts (isCount i) segments).map fun front => front.countP (isItem i)

section
variable {origin i k : Nat} {segments more : List Segment}

theorem startIn_eq_some {offset : Nat} : startIn origin i segments = some offset ↔
    ∃ front, Nth (ofStep i) 0 segments front ∧ offset = origin + size front := by
  simp only [startIn, List.head?_eq_getElem?, Option.map_eq_some_iff, getElem?_fronts,
    @eq_comm _ offset]

/-- A step has a first segment if it has one at all. -/
theorem exists_startIn :
    (∃ offset, startIn origin i segments = some offset) ↔
      ∃ segment ∈ segments, segment.step = i := by
  have hhead : (∃ offset, startIn origin i segments = some offset) ↔
      fronts (ofStep i) segments ≠ [] := by
    cases h : fronts (ofStep i) segments <;> simp [startIn, h]
  rw [hhead, ← List.length_pos_iff, length_fronts, List.countP_pos_iff]
  simp [ofStep]

theorem getElem?_itemsIn {offset : Nat} : (itemsIn origin i segments)[k]? = some offset ↔
    ∃ front, Nth (isItem i) k segments front ∧ offset = origin + size front := by
  simp only [itemsIn, List.getElem?_map, Option.map_eq_some_iff, getElem?_fronts,
    @eq_comm _ offset]

theorem getElem?_blocksIn {first : Nat} : (blocksIn i segments)[k]? = some first ↔
    ∃ front, Nth (isCount i) k segments front ∧ first = front.countP (isItem i) := by
  simp only [blocksIn, List.getElem?_map, Option.map_eq_some_iff, getElem?_fronts,
    @eq_comm _ first]

theorem startIn_append : startIn origin i (segments ++ more) =
    (startIn origin i segments).or (startIn (origin + size segments) i more) := by
  simp only [startIn, fronts_append, List.head?_append, List.head?_map, Option.map_or,
    Option.map_map, Function.comp_def, size_append, Nat.add_assoc]

theorem itemsIn_append : itemsIn origin i (segments ++ more) =
    itemsIn origin i segments ++ itemsIn (origin + size segments) i more := by
  simp only [itemsIn, fronts_append, List.map_append, List.map_map, Function.comp_def, size_append,
    Nat.add_assoc]

theorem blocksIn_append : blocksIn i (segments ++ more) =
    blocksIn i segments ++ (blocksIn i more).map (segments.countP (isItem i) + ·) := by
  simp only [blocksIn, fronts_append, List.map_append, List.map_map, Function.comp_def,
    List.countP_append]

theorem length_itemsIn : (itemsIn origin i segments).length = segments.countP (isItem i) := by
  rw [itemsIn, List.length_map, length_fronts]

theorem startIn_eq_none (h : ∀ segment ∈ segments, segment.step ≠ i) :
    startIn origin i segments = none := by
  rw [startIn, fronts_eq_nil fun segment hsegment => by simpa [ofStep] using h segment hsegment]
  rfl

theorem itemsIn_eq_nil (h : ∀ segment ∈ segments, segment.step ≠ i) :
    itemsIn origin i segments = [] := by
  rw [itemsIn, fronts_eq_nil fun segment hsegment => by simp [isItem, h segment hsegment]]
  rfl

theorem blocksIn_eq_nil (h : ∀ segment ∈ segments, segment.step ≠ i) :
    blocksIn i segments = [] := by
  rw [blocksIn, fronts_eq_nil fun segment hsegment => by simp [isCount, h segment hsegment]]
  rfl

theorem size_cons (segment : Segment) (segments : List Segment) :
    size (segment :: segments) = segment.bytes.length + size segments := by
  rw [size, List.flatMap_cons, List.length_append]
  rfl

-- ---------------------------------------------------------------------------
-- Blocks
-- ---------------------------------------------------------------------------

theorem step_of_mem_block {type : Ty} {values : List Value} {segment : Segment}
    (h : segment ∈ block type i values) : segment.step = i := by
  rcases List.mem_cons.mp h with rfl | h
  · rfl
  · obtain ⟨value, -, rfl⟩ := List.mem_map.mp h
    rfl

theorem itemsIn_items (type : Ty) (values : List Value) :
    itemsIn origin i (values.map (⟨i, .item, type.codec.encode ·⟩)) =
      type.codec.starts origin values := by
  induction values generalizing origin with
  | nil => rfl
  | cons value values ih =>
    rw [Codec.starts, ← ih, itemsIn, itemsIn, List.map_cons, fronts]
    simp [isItem, Function.comp_def, size, Nat.add_assoc]

theorem countP_block (type : Ty) (values : List Value) :
    (block type i values).countP (isItem i) = values.length := by
  have hitems : ∀ segment ∈ values.map (⟨i, .item, type.codec.encode ·⟩ : Value → Segment),
      isItem i segment = true := fun segment hsegment => by
    obtain ⟨value, -, rfl⟩ := List.mem_map.mp hsegment
    simp [isItem]
  rw [block, List.countP_cons_of_neg (by simp [isItem]), List.countP_eq_length.mpr hitems,
    List.length_map]

theorem startIn_block (type : Ty) (values : List Value) :
    startIn origin i (block type i values) = some origin := by
  simp [startIn, block, fronts, ofStep, size]

theorem itemsIn_block (type : Ty) (values : List Value) :
    itemsIn origin i (block type i values) =
      type.codec.starts (origin + (varint values.length).length) values := by
  have hcount : itemsIn origin i [⟨i, .count, varint values.length⟩] = [] := by
    simp [itemsIn, fronts, isItem]
  rw [block, ← List.singleton_append, itemsIn_append, hcount, List.nil_append, size_cons,
    itemsIn_items]
  rfl

theorem blocksIn_block (type : Ty) (values : List Value) :
    blocksIn i (block type i values) = [0] := by
  have hitems : fronts (isCount i) (values.map (⟨i, .item, type.codec.encode ·⟩)) = [] :=
    fronts_eq_nil fun segment hsegment => by
      obtain ⟨value, -, rfl⟩ := List.mem_map.mp hsegment
      simp [isCount]
  simp [blocksIn, block, fronts, isCount, hitems]

end

end Segment

-- ---------------------------------------------------------------------------
-- Calls
-- ---------------------------------------------------------------------------

namespace WriteCall

theorem bytes_segments (call : WriteCall) : call.segments.flatMap Segment.bytes = call.bytes := by
  cases call with
  | items type i values => cases values <;> simp [segments, Segment.block, bytes, List.flatMap_map]
  | _ => simp [segments, Segment.block, bytes]

theorem bytes_flatMap_segments (calls : List WriteCall) :
    (calls.flatMap segments).flatMap Segment.bytes = calls.flatMap bytes := by
  rw [List.flatMap_assoc]
  exact List.flatMap_congr fun call _ => call.bytes_segments

theorem step_of_mem_segments {steps : List Step} {next : Nat} {call : WriteCall}
    (h : call.Allowed steps next) {segment : Segment} (hsegment : segment ∈ call.segments) :
    segment.step < steps.length := by
  have hlt : ∀ {i name kind}, steps[i]? = some ⟨name, kind⟩ → i < steps.length := fun hstep =>
    (List.getElem?_eq_some_iff.mp hstep).1
  cases call with
  | step | endStream =>
    obtain ⟨rfl, name, hstep⟩ := h
    obtain rfl := List.mem_singleton.mp hsegment
    exact hlt hstep
  | item =>
    obtain ⟨rfl, name, hstep⟩ := h
    rw [Segment.step_of_mem_block hsegment]
    exact hlt hstep
  | items type i values =>
    obtain ⟨rfl, name, hstep⟩ := h
    cases values with
    | nil => cases hsegment
    | cons =>
      rw [Segment.step_of_mem_block hsegment]
      exact hlt hstep
  | flush => cases hsegment

/-- What a call puts down and what an index records of it: nothing, or where a value or an end is,
or where the items of a block are. -/
inductive Group (protocol : Protocol) :
    List Segment → (Nat → StreamIndex → StreamIndex) → Prop
  | nothing : Group protocol [] fun _ index => index
  | single {i role bytes} (hitem : role ≠ .item) (hcount : role ≠ .count) :
    Group protocol [⟨i, role, bytes⟩] fun pos index =>
      index.markStep (protocol.stepLabel i) pos
  | block {i type values} (hne : values ≠ []) :
    Group protocol (Segment.block type i values) fun pos index =>
      (index.markStep (protocol.stepLabel i) pos).addBlock (protocol.stepLabel i)
        (type.codec.starts (pos + (varint values.length).length) values)

theorem group (protocol : Protocol) (call : WriteCall) :
    Group protocol call.segments (call.record protocol) := by
  cases call with
  | step | endStream => exact .single (by decide) (by decide)
  | item type i value => exact .block (List.cons_ne_nil value [])
  | items type i values =>
    cases values with
    | nil => exact .nothing
    | cons value values => exact .block (List.cons_ne_nil value values)
  | flush => exact .nothing

/-- The items of a step stand behind one count, or there is neither. -/
theorem Group.blocksIn {protocol : Protocol} {segments : List Segment}
    {record : Nat → StreamIndex → StreamIndex} (h : Group protocol segments record) (i : Nat) :
    (Segment.blocksIn i segments = [] ∧ segments.countP (Segment.isItem i) = 0) ∨
      (Segment.blocksIn i segments = [0] ∧ 0 < segments.countP (Segment.isItem i)) := by
  cases h with
  | nothing => exact .inl ⟨rfl, rfl⟩
  | single hitem hcount =>
    simp [Segment.blocksIn, fronts, Segment.isCount, Segment.isItem, hitem, hcount]
  | @block step type values hne =>
    by_cases hstep : step = i
    · subst hstep
      rw [Segment.blocksIn_block, Segment.countP_block]
      exact .inr ⟨rfl, List.length_pos_iff.mpr hne⟩
    · have hother : ∀ segment ∈ Segment.block type step values, segment.step ≠ i :=
        fun segment hsegment => (Segment.step_of_mem_block hsegment).symm ▸ hstep
      refine .inl ⟨Segment.blocksIn_eq_nil hother,
        List.countP_eq_zero.mpr fun segment hsegment => ?_⟩
      simp [Segment.isItem, hother segment hsegment]

/-- The blocks of a step start at 0 and in front of ever later items. -/
theorem blocksIn_sorted (protocol : Protocol) (calls : List WriteCall) (i : Nat) :
    let blocks := Segment.blocksIn i (calls.flatMap segments)
    let total := (calls.flatMap segments).countP (Segment.isItem i)
    blocks.Pairwise (· < ·) ∧ (∀ first ∈ blocks, first < total) ∧
      (0 < total → blocks.head? = some 0) := by
  induction calls using List.reverseRecOn with
  | nil => simp [Segment.blocksIn, fronts]
  | append_singleton calls call ih =>
    obtain ⟨hsorted, hlow, hhead⟩ := ih
    rw [List.flatMap_append, List.flatMap_singleton]
    simp only [Segment.blocksIn_append, List.countP_append]
    rcases (group protocol call).blocksIn i with ⟨hblocks, hitems⟩ | ⟨hblocks, hitems⟩
    · rw [hblocks, hitems, List.map_nil, List.append_nil]
      exact ⟨hsorted, hlow, hhead⟩
    · rw [hblocks, List.map_singleton, Nat.add_zero]
      refine ⟨List.pairwise_append.mpr ⟨hsorted, List.pairwise_singleton _ _, ?_⟩, ?_, fun _ => ?_⟩
      · intro first hfirst last hlast
        rw [List.mem_singleton.mp hlast]
        exact hlow first hfirst
      · intro first hfirst
        rcases List.mem_append.mp hfirst with hfirst | hfirst
        · exact Nat.lt_of_lt_of_le (hlow first hfirst) (Nat.le_add_right _ _)
        · rw [List.mem_singleton.mp hfirst]
          omega
      · -- without items so far there are no blocks either, and the new one is the first
        rcases Nat.eq_zero_or_pos ((calls.flatMap segments).countP (Segment.isItem i)) with h | h
        · have hnil : Segment.blocksIn i (calls.flatMap segments) = [] := by
            refine List.eq_nil_iff_forall_not_mem.mpr fun first hfirst => ?_
            have := hlow first hfirst
            omega
          rw [hnil, h]
          rfl
        · rw [List.head?_append, hhead h]
          rfl

end WriteCall

end TypedStream
