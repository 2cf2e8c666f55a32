import TypedStream.Proofs.Codec.Runs
import TypedStream.Proofs.Order.Ending

/-!
# Batches and single reads

On whatever bytes single reads of a stream deliver items, a batch read for as many delivers the
same items (`Reader.batch_agrees`), with two exceptions. A batch read that takes the last item of
a block reads the count of the next block at once; where that count is damaged the batch fails,
with the error that the next single read would report (`Reader.batch_reads_ahead`). And a batch of
arrays is read as one run of their elements, of which there may be too many to count
(`Reader.batch_uncountable`).
-/

namespace TypedStream

open Lossless (Ahead)

-- ---------------------------------------------------------------------------
-- Blocks
-- ---------------------------------------------------------------------------

/-- The count of the next block, and the bytes behind it. Nothing ahead is an end. -/
def nextCount : Bytes → Except Error (Nat × Bytes)
  | [] => .ok (0, [])
  | bytes => Decoder.varint.run bytes

/-- The items of the open block, or of the next one if none is open, and the bytes they start
with. -/
def openBlock (remaining : Nat) (bytes : Bytes) : Except Error (Nat × Bytes) :=
  if remaining = 0 then nextCount bytes else .ok (remaining, bytes)

/-- Single reads deliver these items, of the open block and of blocks in the bytes ahead. Then
`left` items of a block are left and the bytes `rest` ahead. -/
inductive Singles (read : Decoder α) : Nat → Bytes → List α → Nat → Bytes → Prop
  | nil {remaining bytes} : Singles read remaining bytes [] remaining bytes
  | cons {remaining bytes n start item after items left rest}
      (hopen : openBlock remaining bytes = .ok (n + 1, start))
      (hitem : read.run start = .ok (item, after))
      (hitems : Singles read n after items left rest) :
      Singles read remaining bytes (item :: items) left rest

namespace Singles

variable {read : Decoder α} {remaining left : Nat} {bytes rest : Bytes} {items : List α}

/-- Opening the next block ahead of time does not change what is delivered. -/
theorem opened (h : Singles read remaining bytes items left rest) (hne : items ≠ []) :
    ∃ n start, openBlock remaining bytes = .ok (n + 1, start) ∧
      Singles read (n + 1) start items left rest := by
  cases h with
  | nil => exact absurd rfl hne
  | cons hopen hitem hitems =>
    exact ⟨_, _, hopen, .cons (if_neg (Nat.succ_ne_zero _)) hitem hitems⟩

/-- Items of the open block lie one behind the other. -/
theorem split (h : Singles read remaining bytes items left rest) {now : Nat}
    (hremaining : now ≤ remaining) (hitems : now ≤ items.length) :
    ∃ after, (read.times now).run bytes = .ok (items.take now, after) ∧
      Singles read (remaining - now) after (items.drop now) left rest := by
  induction now generalizing remaining bytes items with
  | zero => exact ⟨bytes, rfl, h⟩
  | succ now ih =>
    cases h with
    | nil => cases hitems
    | cons hopen hitem hothers =>
      rw [openBlock, if_neg (by omega)] at hopen
      cases hopen
      obtain ⟨after, htimes, hback⟩ := ih hothers (Nat.le_of_succ_le_succ hremaining)
        (Nat.le_of_succ_le_succ hitems)
      refine ⟨after, Decoder.run_times_succ.mpr ⟨_, _, _, hitem, htimes, rfl⟩, ?_⟩
      rwa [Nat.add_sub_add_right]

end Singles

-- ---------------------------------------------------------------------------
-- Runs
-- ---------------------------------------------------------------------------

/-- Up to `limit` items that are read one after the other are read as a run. -/
def StepDecoder.Joins (decoder : StepDecoder α) (codec : Codec α) (limit : Nat) : Prop :=
  ∀ n ≤ limit, ∀ {bytes rest items}, ((decoder.one codec).times n).run bytes = .ok (items, rest) →
    (decoder.many codec n).run bytes = .ok (items, rest)

theorem StepDecoder.joins_codec {type : Ty} {decoder : StepDecoder Value} {limit : Nat}
    (h : decoder = .current → type.Countable limit) : decoder.Joins type.codec limit := by
  intro n hn bytes rest items htimes
  cases decoder with
  | current => exact Ty.run_of_times ((h rfl).mono hn) htimes
  | legacy read => exact htimes

-- ---------------------------------------------------------------------------
-- Inputs
-- ---------------------------------------------------------------------------

section
variable {σ : Type} [ByteInput σ] [Lossless σ]

namespace Reader

/-- The outcome is that of opening a block: a block is open at the bytes it starts with, or the
count has an error. -/
def Opens (r : Reader σ) (block : Except Error (Nat × Bytes))
    (result : EStateM.Result Error (Reader σ) Unit) : Prop :=
  match block with
  | .ok (n, start) => ∃ r' p, result = .ok () r' ∧ r'.order = r.order ∧ r'.remaining = n ∧
      Ahead r'.input p start
  | .error error => ∃ r', result = .error error r'

theorem nextBlock_opens {r : Reader σ} {p : Nat} {bytes : Bytes} (ha : Ahead r.input p bytes) :
    r.Opens (nextCount bytes) (nextBlock r) := by
  obtain ⟨s, hs, has⟩ := Lossless.atEnd_ok ha
  cases bytes with
  | nil =>
    have htry : tryVarint r.input = .ok none s := bind_ok.mpr ⟨true, s, hs, rfl⟩
    refine ⟨{ r with input := s, remaining := 0 }, p, ?_, rfl, rfl, has⟩
    simp only [nextBlock, htry, Option.getD_none]
  | cons b bytes =>
    show r.Opens (Decoder.varint.run (b :: bytes)) (nextBlock r)
    cases hrun : Decoder.varint.run (b :: bytes) with
    | ok found =>
      obtain ⟨n, start⟩ := found
      obtain ⟨t, used, ht, -, -, hat⟩ := exec_of_run has hrun
      have htry : tryVarint r.input = .ok (some n) t :=
        bind_ok.mpr ⟨false, s, hs, bind_ok.mpr ⟨n, t, ht, rfl⟩⟩
      refine ⟨{ r with input := t, remaining := n }, _, ?_, rfl, rfl, hat⟩
      simp only [nextBlock, htry, Option.getD_some]
    | error error =>
      obtain ⟨t, ht⟩ := exec_of_run_error has hrun
      have htry : tryVarint r.input = .error error t :=
        bind_error.mpr (.inr ⟨false, s, hs, bind_error.mpr (.inl ht)⟩)
      exact ⟨{ r with input := t }, by simp only [nextBlock, htry]⟩

theorem ensureBlock_opens {r : Reader σ} {p : Nat} {bytes : Bytes} (ha : Ahead r.input p bytes) :
    r.Opens (openBlock r.remaining bytes) (ensureBlock r) := by
  unfold ensureBlock openBlock
  split
  · exact nextBlock_opens ha
  · exact ⟨r, p, rfl, rfl, rfl, ha⟩

-- ---------------------------------------------------------------------------
-- Single reads
-- ---------------------------------------------------------------------------

/-- The reader may read stream `i` and has these bytes ahead. -/
structure Facing (r : Reader σ) (protocol : Protocol) (i : Nat) (bytes : Bytes) : Prop where
  step : ∃ name, protocol.steps[i]? = some ⟨name, .stream⟩
  order : ∃ place, r.order = ⟨protocol, place⟩ ∧ place.Faces i
  ahead : ∃ p, Ahead r.input p bytes

section
variable {r r' : Reader σ} {protocol : Protocol} {i : Nat} {bytes : Bytes} {codec : Codec α}
  {decoder : StepDecoder α}

theorem Facing.block_opens (h : r.Facing protocol i bytes) :
    Opens { r with order := ⟨protocol, .at i⟩ } (openBlock r.remaining bytes)
      (ensureBlock { r with order := ⟨protocol, .at i⟩ }) := by
  obtain ⟨p, hahead⟩ := h.ahead
  exact ensureBlock_opens hahead

theorem Facing.readItem_eq (h : r.Facing protocol i bytes) (codec : Codec α)
    (decoder : StepDecoder α) :
    readItem codec decoder i r = (ensureBlock >>= fun _ => takeItem codec decoder i)
      { r with order := ⟨protocol, .at i⟩ } := by
  obtain ⟨name, hstep⟩ := h.step
  obtain ⟨place, ho, hfaces⟩ := h.order
  exact readItem_facing hstep ho hfaces codec decoder

omit [Lossless σ] in
theorem takeItem_some {item : α} (h : takeItem codec decoder i r = .ok (some item) r') :
    ∃ input, r.remaining ≠ 0 ∧ (decoder.one codec).exec r.input = .ok item input ∧
      r' = { r with input, remaining := r.remaining - 1 } := by
  unfold takeItem onInput at h
  split at h
  · cases h
  next hremaining =>
  cases hexec : (decoder.one codec).exec r.input with
  | ok found input =>
    rw [hexec] at h
    cases h
    exact ⟨input, hremaining, rfl, rfl⟩
  | error error input =>
    rw [hexec] at h
    cases h

theorem Facing.readItem_some (h : r.Facing protocol i bytes) {item : α}
    (hrun : readItem codec decoder i r = .ok (some item) r') :
    ∃ start after, openBlock r.remaining bytes = .ok (r'.remaining + 1, start) ∧
      (decoder.one codec).run start = .ok (item, after) ∧ r'.Facing protocol i after := by
  have hopens := h.block_opens
  rw [h.readItem_eq] at hrun
  obtain ⟨⟨⟩, r₁, hblock, htake⟩ := bind_ok.mp hrun
  rw [hblock] at hopens
  obtain ⟨input, hne, hexec, rfl⟩ := takeItem_some htake
  cases hopen : openBlock r.remaining bytes with
  | error error =>
    rw [hopen] at hopens
    obtain ⟨_, hfails⟩ := hopens
    cases hfails
  | ok found =>
    obtain ⟨n, start⟩ := found
    rw [hopen] at hopens
    obtain ⟨_, q, hok, ho, rfl, hstart⟩ := hopens
    cases hok
    obtain ⟨after, q', hread, hafter⟩ := run_of_exec hstart hexec
    refine ⟨start, after, ?_, hread, h.step, ⟨_, ho, .inl rfl⟩, q', hafter⟩
    rw [Nat.sub_add_cancel (Nat.pos_of_ne_zero hne)]

theorem Facing.readItem_run (h : r.Facing protocol i bytes) {item : α} {n : Nat}
    {start after : Bytes} (hopen : openBlock r.remaining bytes = .ok (n + 1, start))
    (hitem : (decoder.one codec).run start = .ok (item, after)) :
    ∃ r', readItem codec decoder i r = .ok (some item) r' ∧ r'.remaining = n ∧
      r'.Facing protocol i after := by
  have hopens := h.block_opens
  rw [hopen] at hopens
  obtain ⟨r₁, q, hblock, ho, hremaining, hstart⟩ := hopens
  obtain ⟨input, used, hinput, -, -, hafter⟩ := exec_of_run hstart hitem
  refine ⟨{ r₁ with input, remaining := n }, ?_, rfl, h.step, ⟨_, ho, .inl rfl⟩, _, hafter⟩
  rw [h.readItem_eq]
  refine bind_ok.mpr ⟨(), r₁, hblock, ?_⟩
  simp only [takeItem, onInput_run hinput, hremaining, if_neg (Nat.succ_ne_zero n),
    Nat.add_sub_cancel]

theorem Facing.readItem_error (h : r.Facing protocol i bytes) {error : Error}
    (hblock : openBlock r.remaining bytes = .error error) :
    ∃ r', readItem codec decoder i r = .error error r' := by
  have hopens := h.block_opens
  rw [hblock] at hopens
  obtain ⟨r', hfails⟩ := hopens
  rw [h.readItem_eq]
  exact ⟨r', bind_error.mpr (.inl hfails)⟩

end

/-- Items that single reads deliver are `Singles` of the bytes ahead. -/
theorem Facing.answers_singles {r r' : Reader σ} {protocol : Protocol} {i : Nat} {bytes : Bytes}
    {type : Ty} {decoder : StepDecoder Value} {items : List Value}
    (h : r.Facing protocol i bytes)
    (hrun : answers (.replicate items.length (.item type decoder i)) r =
      .ok (items.map fun item => .item (some item)) r') :
    ∃ rest, Singles (decoder.one type.codec) r.remaining bytes items r'.remaining rest ∧
      r'.Facing protocol i rest := by
  induction items generalizing r bytes with
  | nil =>
    obtain ⟨-, rfl⟩ := pure_ok.mp hrun
    exact ⟨bytes, .nil, h⟩
  | cons item items ih =>
    obtain ⟨first, r₁, hfirst, hothers⟩ := bind_ok.mp hrun
    obtain ⟨others, r₂, hothers, hdone⟩ := bind_ok.mp hothers
    obtain ⟨hall, rfl⟩ := pure_ok.mp hdone
    cases hall
    obtain ⟨found, hread, hfound⟩ := map_inv hfirst
    cases hfound
    obtain ⟨start, after, hopen, hitem, hfacing⟩ := h.readItem_some hread
    obtain ⟨rest, hsingles, hfacing'⟩ := ih hfacing hothers
    exact ⟨rest, .cons hopen hitem hsingles, hfacing'⟩

theorem Facing.answers_of_singles {r : Reader σ} {protocol : Protocol} {i left : Nat}
    {bytes rest : Bytes} {type : Ty} {decoder : StepDecoder Value} {items : List Value}
    (h : r.Facing protocol i bytes)
    (hsingles : Singles (decoder.one type.codec) r.remaining bytes items left rest) :
    ∃ r', answers (.replicate items.length (.item type decoder i)) r =
        .ok (items.map fun item => .item (some item)) r' ∧
      r'.remaining = left ∧ r'.Facing protocol i rest := by
  induction items generalizing r bytes with
  | nil =>
    cases hsingles
    exact ⟨r, rfl, rfl, h⟩
  | cons item items ih =>
    cases hsingles with
    | cons hopen hitem hsingles =>
      obtain ⟨r₁, hread, rfl, hfacing⟩ := h.readItem_run hopen hitem
      obtain ⟨r', hothers, hleft, hfacing'⟩ := ih hfacing hsingles
      exact ⟨r', answers_cons (map_ok hread) hothers, hleft, hfacing'⟩

-- ---------------------------------------------------------------------------
-- Batches
-- ---------------------------------------------------------------------------

omit [Lossless σ] in
theorem fillItems_done {codec : Codec α} {decoder : StepDecoder α} {room : Nat} {found : List α}
    {r : Reader σ} (h : room = 0 ∨ r.remaining = 0) :
    fillItems codec decoder room found r = (.ok () r, found) := by
  unfold fillItems
  rw [dif_pos h]

/-- The items are found, and then comes what opening the block behind them comes to. -/
theorem fillItems_opens {codec : Codec α} {decoder : StepDecoder α} {r : Reader σ} {p : Nat}
    {bytes rest : Bytes} {items : List α} {left : Nat} (hjoins : decoder.Joins codec items.length)
    (ha : Ahead r.input p bytes) (hremaining : r.remaining ≠ 0) (hne : items ≠ [])
    (h : Singles (decoder.one codec) r.remaining bytes items left rest) (found : List α) :
    ∃ result, fillItems codec decoder items.length found r = (result, found ++ items) ∧
      r.Opens (openBlock left rest) result := by
  -- Each turn takes at least one item, so the induction is on how many there are.
  induction hlength : items.length using Nat.strongRecOn generalizing r p bytes items found with
  | ind length ih =>
    subst hlength
    have hpos := List.length_pos_iff.mpr hne
    obtain ⟨now, hnow⟩ : ∃ now, now = min r.remaining items.length := ⟨_, rfl⟩
    have hopened : now ≤ r.remaining := by omega
    obtain ⟨after, htimes, hback⟩ := h.split hopened (by omega)
    obtain ⟨input, used, hinput, -, -, hafter⟩ := exec_of_run ha (hjoins now (by omega) htimes)
    have hopens : Opens { r with input, remaining := r.remaining - now }
        (openBlock (r.remaining - now) after)
        (ensureBlock { r with input, remaining := r.remaining - now }) := ensureBlock_opens hafter
    unfold fillItems
    rw [dif_neg (by omega), ← hnow]
    dsimp only
    rw [onInput_run hinput]
    dsimp only
    by_cases hdone : items.drop now = []
    · -- The batch is full; what follows is the block opened ahead of time.
      have hall : items.length ≤ now := List.drop_eq_nil_iff.mp hdone
      rw [hdone] at hback
      cases hback
      rw [List.take_of_length_le hall]
      generalize ensureBlock { r with input, remaining := r.remaining - now } = x at hopens
      refine ⟨x, ?_, hopens⟩
      cases x with
      | ok _ r' => exact fillItems_done (.inl (by omega))
      | error error r' => rfl
    · obtain ⟨n, start, hopen, hothers⟩ := hback.opened hdone
      rw [hopen] at hopens
      obtain ⟨r', q, hok, ho, hleft, hstart⟩ := hopens
      rw [hok]
      dsimp only
      rw [← hleft] at hothers
      have hcut : (items.drop now).length = items.length - now := List.length_drop
      obtain ⟨result, hfill, hopens⟩ := ih _ (by omega) (fun n hn => hjoins n (by omega)) hstart
        (by omega) hdone hothers (found ++ items.take now) rfl
      rw [List.append_assoc, List.take_append_drop, hcut] at hfill
      refine ⟨result, hfill, ?_⟩
      unfold Opens at hopens ⊢
      rwa [ho] at hopens

omit [ByteInput σ] [Lossless σ] in
theorem endBatch_more {i : Nat} {items : List α} (hne : items ≠ []) (r : Reader σ) :
    (endBatch i items r).1 = true := by
  unfold endBatch
  split
  · simpa using hne
  · rfl

theorem Facing.readItems_eq {codec : Codec α} {decoder : StepDecoder α} {r r₁ : Reader σ}
    {protocol : Protocol} {i max : Nat} {bytes : Bytes} (h : r.Facing protocol i bytes)
    (hmax : max ≠ 0) (hblock : ensureBlock { r with order := ⟨protocol, .at i⟩ } = .ok () r₁)
    (seed : List α) :
    readItems codec decoder i max seed r =
      match fillItems codec decoder max [] r₁ with
      | (.error error r₂, items) => (.error error r₂, items)
      | (.ok () r₂, items) => (.ok (endBatch i items r₂).1 (endBatch i items r₂).2, items) := by
  obtain ⟨name, hstep⟩ := h.step
  obtain ⟨place, ho, hfaces⟩ := h.order
  unfold readItems
  rw [if_neg hmax, authorize_run (by rw [ho]) hstep]
  dsimp only
  rw [beginStream_run ho hfaces]
  dsimp only
  split
  · next hfails => cases hblock.symm.trans hfails
  · next hopen =>
    cases hblock.symm.trans hopen
    rfl

theorem Facing.readItems_opens {codec : Codec α} {decoder : StepDecoder α} {r : Reader σ}
    {protocol : Protocol} {i left : Nat} {bytes rest : Bytes} {items : List α}
    (h : r.Facing protocol i bytes) (hjoins : decoder.Joins codec items.length)
    (hsingles : Singles (decoder.one codec) r.remaining bytes items left rest) (hne : items ≠ [])
    (seed : List α) :
    (∀ block, openBlock left rest = .ok block →
      ∃ r', readItems codec decoder i items.length seed r = (.ok true r', items)) ∧
    (∀ error, openBlock left rest = .error error →
      ∃ r', readItems codec decoder i items.length seed r = (.error error r', items)) := by
  obtain ⟨n, start, hopen, hsingles⟩ := hsingles.opened hne
  have hopens := h.block_opens
  rw [hopen] at hopens
  obtain ⟨r₁, q, hblock, -, hremaining, hstart⟩ := hopens
  rw [← hremaining] at hsingles
  obtain ⟨result, hfill, hopens⟩ :=
    fillItems_opens hjoins hstart (by omega) hne hsingles []
  rw [h.readItems_eq (mt List.eq_nil_of_length_eq_zero hne) hblock, hfill, List.nil_append]
  constructor
  · rintro ⟨n, start⟩ hnext
    rw [hnext] at hopens
    obtain ⟨r₂, -, rfl, -⟩ := hopens
    dsimp only
    rw [endBatch_more hne]
    exact ⟨_, rfl⟩
  · intro error hnext
    rw [hnext] at hopens
    obtain ⟨r₂, rfl⟩ := hopens
    exact ⟨r₂, rfl⟩

theorem Facing.readItems_fails {codec : Codec α} {decoder : StepDecoder α} {r : Reader σ}
    {protocol : Protocol} {i n max : Nat} {bytes start : Bytes} {error : Error}
    (h : r.Facing protocol i bytes) (hopen : openBlock r.remaining bytes = .ok (n + 1, start))
    (hmax : max ≠ 0) (hmany : (decoder.many codec (min (n + 1) max)).run start = .error error)
    (seed : List α) : ∃ r', readItems codec decoder i max seed r = (.error error r', []) := by
  have hopens := h.block_opens
  rw [hopen] at hopens
  obtain ⟨r₁, q, hblock, -, hremaining, hstart⟩ := hopens
  obtain ⟨input, hinput⟩ := exec_of_run_error hstart hmany
  rw [h.readItems_eq hmax hblock]
  unfold fillItems
  rw [dif_neg (by omega), hremaining]
  dsimp only
  rw [onInput_error hinput]
  exact ⟨_, rfl⟩

-- ---------------------------------------------------------------------------
-- Calls
-- ---------------------------------------------------------------------------

theorem open_ahead {protocol : Protocol} {input : σ} {r : Reader σ} {p : Nat} {bytes : Bytes}
    (ha : Ahead input p bytes) (h : Reader.open protocol input = .ok r) :
    ∃ p bytes, Ahead r.input p bytes := by
  unfold Reader.open at h
  split at h
  · cases h
  next header input hread =>
  split at h
  · cases h
  · cases h
    obtain ⟨rest, q, -, hrest⟩ := run_of_exec ha hread
    exact ⟨q, rest, hrest⟩

theorem after_ahead {r : Reader σ} (h : ∃ p bytes, Ahead r.input p bytes)
    (calls : List ReadCall) : ∃ p bytes, Ahead (after calls r).input p bytes := by
  induction calls generalizing r with
  | nil => exact h
  | cons call calls ih =>
    obtain ⟨p, bytes, ha⟩ := h
    obtain ⟨-, hlike⟩ := reply_like congruent_ahead ⟨rfl, rfl, rfl, rfl, rfl, p, bytes, ha, ha⟩ call
    obtain ⟨p', bytes', ha', -⟩ := hlike.input
    exact ih ⟨p', bytes', ha'⟩

end Reader

end

namespace Reader

variable {protocol : Protocol} {i : Nat} {type : Ty} {decoder : StepDecoder Value}

theorem facing_of_answer {r r' : Reader InputStream} {bytes : Bytes} {item : Value}
    (hr : r.InOrder protocol) (ha : ∃ p, Ahead r.input p bytes)
    (h : answer (.item type decoder i) r = .ok (.item (some item)) r') :
    r.Facing protocol i bytes := by
  have hadmitted := admitted_of_answer hr h
  refine ⟨hadmitted.step, ?_, ha⟩
  rcases place_of_admitted hadmitted with hfaces | hdrained
  · exact ⟨_, hr.order_eq, hfaces⟩
  · obtain ⟨name, hstep⟩ := hadmitted.step
    have ho : r.order = ⟨protocol, .drained i⟩ := by
      rw [hr.order_eq, hdrained]
      rfl
    obtain ⟨found, hanswer, hend, -⟩ := answer_drained hstep ho rfl rfl hadmitted.roomy
    rw [h] at hanswer
    cases hanswer
    cases hend

end Reader

namespace OneStream

def protocol : Protocol where
  name := "OneStream"
  steps := [⟨"items", .stream⟩]
  schema := "one stream"

/-- A file with these bytes behind its header. -/
def input (payload : Bytes) : InputStream :=
  .open (.ofBytes (Header.bytes protocol.schema ++ payload)) 0 0

theorem reliable (payload : Bytes) :
    (Source.ofBytes (Header.bytes protocol.schema ++ payload)).Reliable :=
  ⟨rfl, by simp [Source.ofBytes]⟩

theorem open_facing (payload : Bytes) :
    ∃ r₀, Reader.open protocol (input payload) = .ok r₀ ∧ r₀.remaining = 0 ∧
      r₀.Facing protocol 0 payload := by
  have hahead := InputStream.ahead_open (reliable payload) 0 0
  have hschema : (utf8 protocol.schema).length ≤ Header.maxSchemaBytes := by decide
  obtain ⟨r₀, hopen, hbefore⟩ := Reader.open_run hschema hahead
  exact ⟨r₀, hopen, hbefore.remaining, ⟨_, rfl⟩, hbefore.order, _, hbefore.ahead⟩

end OneStream

namespace Reader

variable {protocol : Protocol} {i : Nat} {type : Ty} {decoder : StepDecoder Value}

/-- Where single reads of a stream deliver items, on whatever bytes, a batch read delivers them,
unless the last of them ends its block and the count of the next one is damaged: then the batch,
its items already in the list, fails as the next single read does. -/
theorem batch_agrees {source : Source} (hsource : source.Reliable) (bufferSize offset : Nat)
    {r₀ r' : Reader InputStream}
    (hopen : Reader.open protocol (InputStream.open source bufferSize offset) = .ok r₀)
    (calls : List ReadCall) {items : List Value} (hne : items ≠ [])
    (hcountable : decoder = .current → type.Countable items.length)
    (hitems : answers (.replicate items.length (.item type decoder i)) (after calls r₀) =
      .ok (items.map fun item => .item (some item)) r') (seed : List Value) :
    (∀ block, openBlock r'.remaining r'.input.ahead = .ok block →
      ∃ r'', answer (.items type decoder i items.length seed) (after calls r₀) =
        .ok (.items true items) r'') ∧
    (∀ error, openBlock r'.remaining r'.input.ahead = .error error →
      (reply (.items type decoder i items.length seed) (after calls r₀)).1 =
        .failure error items ∧
      ∃ r'', answer (.item type decoder i) r' = .error error r'') := by
  have hr : (after calls r₀).InOrder protocol := (after_leads (open_inOrder hopen) calls).inOrder
  obtain ⟨p, bytes, ha⟩ :=
    after_ahead (open_ahead (InputStream.ahead_open hsource bufferSize offset) hopen) calls
  have hfacing : (after calls r₀).Facing protocol i bytes := by
    cases items with
    | nil => exact absurd rfl hne
    | cons item items =>
      obtain ⟨first, r₁, hfirst, hothers⟩ := bind_ok.mp hitems
      obtain ⟨others, r₂, -, hdone⟩ := bind_ok.mp hothers
      obtain ⟨hall, -⟩ := pure_ok.mp hdone
      cases hall
      exact facing_of_answer hr ⟨p, ha⟩ hfirst
  obtain ⟨rest, hsingles, hfacing'⟩ := hfacing.answers_singles hitems
  obtain rfl : r'.input.ahead = rest := by
    obtain ⟨q, -, -, hrest⟩ := hfacing'.ahead
    exact hrest
  obtain ⟨hok, herror⟩ :=
    hfacing.readItems_opens (StepDecoder.joins_codec hcountable) hsingles hne seed
  refine ⟨fun block hblock => ?_, fun error hblock => ⟨?_, ?_⟩⟩
  · obtain ⟨r'', hread⟩ := hok block hblock
    exact ⟨r'', by simp only [answer, hread]⟩
  · obtain ⟨r'', hread⟩ := herror error hblock
    simp only [reply, answer, leftover, hread]
  · obtain ⟨r'', hread⟩ := hfacing'.readItem_error hblock
    exact ⟨r'', map_error hread⟩

/-- Two octets, each in a block of its own and none behind them, are delivered by two reads and by
one. -/
theorem batch_agrees_octets :
    ∃ r₀ r' r'', Reader.open OneStream.protocol (OneStream.input [1, 7, 1, 8]) = .ok r₀ ∧
      answers (.replicate 2 (.item (.int .u8) .current 0)) r₀ =
        .ok [.item (some (.int 7)), .item (some (.int 8))] r' ∧
      answer (.items (.int .u8) .current 0 2 []) r₀ =
        .ok (.items true [.int 7, .int 8]) r'' := by
  obtain ⟨r₀, hopen, hremaining, hfacing⟩ := OneStream.open_facing [1, 7, 1, 8]
  have hsingles : Singles (StepDecoder.one .current (Ty.codec (.int .u8))) r₀.remaining
      [1, 7, 1, 8] [.int 7, .int 8] 0 [] := by
    rw [hremaining]
    exact .cons rfl rfl (.cons rfl rfl .nil)
  obtain ⟨r', hitems, hleft, hend⟩ := hfacing.answers_of_singles hsingles
  obtain ⟨q, -, -, hrest⟩ := hend.ahead
  have hcountable : Ty.Countable (.int .u8) 2 := trivial
  obtain ⟨hbatch, -⟩ :=
    batch_agrees (OneStream.reliable _) 0 0 hopen [] (by simp) (fun _ => hcountable) hitems []
  obtain ⟨r'', hr''⟩ := hbatch (0, []) (by rw [hleft, hrest]; rfl)
  exact ⟨r₀, r', r'', hopen, hitems, hr''⟩

/-- A batch read may fail where single reads deliver the items it asks for. -/
theorem batch_reads_ahead :
    ¬ ∀ (protocol : Protocol) (source : Source) (bufferSize offset : Nat)
      (r₀ r' : Reader InputStream) (calls : List ReadCall) (type : Ty)
      (decoder : StepDecoder Value) (i : Nat) (items seed : List Value), source.Reliable →
      Reader.open protocol (InputStream.open source bufferSize offset) = .ok r₀ → items ≠ [] →
      answers (.replicate items.length (.item type decoder i)) (after calls r₀) =
        .ok (items.map fun item => .item (some item)) r' →
      ∃ r'', answer (.items type decoder i items.length seed) (after calls r₀) =
        .ok (.items true items) r'' := by
  intro hagrees
  -- Behind the block of one octet stands a byte that starts a count and does not end it.
  obtain ⟨r₀, hopen, hremaining, hfacing⟩ := OneStream.open_facing [1, 7, 0x80]
  have hsingles : Singles (StepDecoder.one .current (Ty.codec (.int .u8))) r₀.remaining
      [1, 7, 0x80] [.int 7] 0 [0x80] := by
    rw [hremaining]
    exact .cons rfl rfl .nil
  obtain ⟨r', hitems, -⟩ := hfacing.answers_of_singles hsingles
  obtain ⟨r'', hbatch⟩ := hagrees _ _ 0 0 r₀ r' [] _ _ 0 _ [] (OneStream.reliable _) hopen (by simp)
    hitems
  have hcountable : Ty.Countable (.int .u8) 1 := trivial
  have hjoins : StepDecoder.Joins .current (Ty.codec (.int .u8)) 1 :=
    StepDecoder.joins_codec fun _ => hcountable
  obtain ⟨-, hfails⟩ := hfacing.readItems_opens hjoins hsingles (by simp) []
  obtain ⟨r₁, hfails⟩ := hfails _ rfl
  simp only [answer, after] at hbatch
  rw [hfails] at hbatch
  cases hbatch

/-- Nor does a batch deliver values with too many elements to count, whatever follows them. -/
theorem batch_uncountable {length : Nat} (hlength : sizeLimit ≤ 2 * length) :
    ∃ r₀ r' r'', Reader.open OneStream.protocol (OneStream.input [2]) = .ok r₀ ∧
      answers (.replicate 2 (.item (.array .unit length) .current 0)) r₀ =
        .ok (.replicate 2 (.item (some (.list (.replicate length .unit))))) r' ∧
      openBlock r'.remaining r'.input.ahead = .ok (0, []) ∧
      answer (.items (.array .unit length) .current 0 2 []) r₀ =
        .error (.format .arrayCountOverflow) r'' := by
  obtain ⟨r₀, hopen, hremaining, hfacing⟩ := OneStream.open_facing [2]
  have hblock : openBlock r₀.remaining [2] = .ok (2, []) := by
    rw [hremaining]
    rfl
  have hsingles : Singles (StepDecoder.one .current (Ty.codec (.array .unit length))) r₀.remaining
      [2] (.replicate 2 (.list (.replicate length .unit))) 0 [] :=
    .cons hblock (Ty.run_unitArray length []) (.cons rfl (Ty.run_unitArray length []) .nil)
  obtain ⟨r', hitems, hleft, hend⟩ := hfacing.answers_of_singles hsingles
  obtain ⟨q, -, -, hrest⟩ := hend.ahead
  have hmany : (StepDecoder.many .current (Ty.codec (.array .unit length)) (min 2 2)).run [] =
      .error (.format .arrayCountOverflow) := Ty.run_unitArrays (Nat.not_lt.mpr hlength) []
  obtain ⟨r'', hbatch⟩ := hfacing.readItems_fails hblock (Nat.succ_ne_zero 1) hmany []
  refine ⟨r₀, r', r'', hopen, hitems, ?_, ?_⟩
  · rw [hleft, hrest]
    rfl
  · simp only [answer, hbatch]

end Reader

end TypedStream
