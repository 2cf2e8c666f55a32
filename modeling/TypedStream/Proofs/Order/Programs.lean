import TypedStream.Proofs.Draining

/-!
# Reads by any programs

What takes the values off the input need not be a decoder. It may look ahead, seek, or go on after a
failure, and a batch of what it takes need not come to an end. Reads by such programs are refused
where those of a decoder are, and where they lead a reader is the same (`Reader.Reached.in_order`):
the order of calls and the end of a stream are kept outside of the programs. A batch delivers what
single reads deliver (`Reader.Reached.batch_delivers`).
-/

namespace TypedStream

/-- The answer says that the stream has no items left. -/
def Answer.ReportsEnd : Answer → Prop
  | value _ => False
  | item found => found = none
  | items more _ => more = false

/-- A batch read of a stream whose end is not known at this cursor. -/
def ReadCall.FindsEnd (cursor : Nat) : ReadCall → Prop
  | items _ _ i _ _ => cursor ≠ 2 * i + 1
  | _ => False

/-- The reader stands at this place, with no block open. -/
structure Reader.Ended (r : Reader InputStream) (protocol : Protocol) (place : ReadPlace) :
    Prop where
  order : r.order = ⟨protocol, place⟩
  remaining : r.remaining = 0

namespace Intake

open Reader (enter onInput ensureBlock)

-- ---------------------------------------------------------------------------
-- Batches
-- ---------------------------------------------------------------------------

section
variable {intake : Intake α} {r r' : Reader InputStream} {protocol : Protocol} {i max : Nat}
  {name : String} {E : Error → Prop}

theorem fill_ends (hE : intake.FailsIn E) (hfatal : ∀ error : Error, error.fatal = true → E error)
    {turns : Nat} {found : List α} {outcome : EStateM.Result Error (Reader InputStream) Unit × List α}
    (h : intake.fill max turns found r = some outcome) :
    Ends (fun r' => r'.order = r.order) E outcome.1 := by
  refine loop_meets (P := fun state => state.2.order = r.order)
    (Q := fun outcome => Ends (fun r' => r'.order = r.order) E outcome.1) ?_ rfl h
  rintro turns ⟨found, s⟩ result hs hturn
  cases hturn
  simp only [fillTurn]
  split
  · exact hs
  have hread : Ends (fun t => t.order = s.order ∧ t.remaining = s.remaining) E
      (onInput (intake.many (min s.remaining (max - found.length))) s) :=
    Reader.onInput_ends hE.many
  split
  · next hfails =>
    rw [hfails] at hread
    exact ⟨hread.1.1.trans hs, hread.2⟩
  next items s₁ hitems =>
  rw [hitems] at hread
  have ho₁ : s₁.order = s.order := hread.1
  have hblock := Reader.ensureBlock_ends hfatal
    (r := { s₁ with remaining := s₁.remaining - min s.remaining (max - found.length) })
  split
  · next hfails =>
    rw [hfails] at hblock
    exact ⟨hblock.1.trans (ho₁.trans hs), hblock.2⟩
  · next hnext =>
    rw [hnext] at hblock
    exact hblock.trans (ho₁.trans hs)

theorem readBatch_ends (hE : intake.FailsIn E)
    (hfatal : ∀ error : Error, error.fatal = true → E error) (hr : r.InOrder protocol)
    (hstep : protocol.step? i = some ⟨name, .stream⟩)
    (hplace : r.order.place.Faces i ∨ r.order.place = .drained i) (hmax : 1 ≤ max) {turns : Nat}
    {result : EStateM.Result Error (Reader InputStream) (Option (List α))}
    (h : intake.readBatch i max turns r = some result) : Ends (r.Leads protocol) E result := by
  rw [readBatch, if_neg (Nat.one_le_iff_ne_zero.mp hmax)] at h
  rcases Reader.enter_ends hfatal hr hstep hplace with
    ⟨r', henter, hleads⟩ | ⟨r', henter, ho, hcursor⟩ | ⟨error, r', henter, hleads, herror⟩
  · rw [henter] at h
    cases h
    exact hleads
  · rw [henter] at h
    obtain ⟨⟨outcome, items⟩, hfill, rfl⟩ := Option.map_eq_some_iff.mp h
    have hends := fill_ends hE hfatal hfill
    cases outcome with
    | ok found r₁ =>
      have ho₁ : r₁.order = r'.order := hends
      have hinside : r'.Leads protocol r₁ := .of_order (.inside (ho₁.trans ho) hstep) ho₁
      exact (Reader.endBatch_leads items hstep (ho₁.trans ho)).trans
        (Nat.le_trans hcursor hinside.cursor_le)
    | error error r₁ =>
      obtain ⟨ho₁, herror⟩ := hends
      exact ⟨.trans (.of_order (.inside (ho₁.trans ho) hstep) ho₁) hcursor, herror⟩
  · rw [henter] at h
    cases h
    exact ⟨hleads, herror⟩

-- ---------------------------------------------------------------------------
-- The end of a stream
-- ---------------------------------------------------------------------------

theorem enter_drained (hstep : protocol.step? i = some ⟨name, .stream⟩)
    (ho : r.order = ⟨protocol, .drained i⟩) :
    enter i r = .ok .finished { r with order := ⟨protocol, .at (i + 1)⟩ } := by
  refine bind_ok.mpr ⟨(), r, Reader.authorize_run (congrArg _ ho) hstep, ?_⟩
  exact bind_ok.mpr ⟨.finished, _, Reader.beginStream_drained ho, rfl⟩

theorem enter_refused {refusal : Refusal}
    (h : Reader.authorize i .stream r = .error (.protocol refusal) r ∨
      (Reader.authorize i .stream r = .ok () r ∧
        Reader.beginStream i r = .error (.protocol refusal) r)) :
    enter i r = .error (.protocol refusal) r := by
  rcases h with hrefused | ⟨hallowed, hrefused⟩
  · exact bind_error.mpr (.inl hrefused)
  · exact bind_error.mpr (.inr ⟨(), r, hallowed, bind_error.mpr (.inl hrefused)⟩)

theorem enter_facing (hr : r.InOrder protocol) (hstep : protocol.step? i = some ⟨name, .stream⟩)
    (hfaces : r.order.place.Faces i) {turn : StreamRead} (h : enter i r = .ok turn r') :
    turn = .proceed ∧ r'.order = ⟨protocol, .at i⟩ := by
  obtain ⟨⟨⟩, r₁, hallowed, h⟩ := bind_ok.mp h
  rw [Reader.authorize_run (congrArg _ hr.order_eq) hstep] at hallowed
  cases hallowed
  obtain ⟨turn, r₂, hbegin, h⟩ := bind_ok.mp h
  rw [Reader.beginStream_run hr.order_eq hfaces] at hbegin
  cases hbegin
  obtain ⟨⟨⟩, r₃, hblock, h⟩ := bind_ok.mp h
  obtain ⟨rfl, rfl⟩ := pure_ok.mp h
  refine ⟨rfl, ?_⟩
  have hends := Reader.ensureBlock_ends (E := fun _ => True) (fun _ _ => trivial)
    (r := { r with order := ⟨protocol, .at i⟩ })
  rwa [hblock] at hends

theorem enter_inv (hr : r.InOrder protocol) (h : enter i r = .ok .proceed r') :
    ∃ name, protocol.step? i = some ⟨name, .stream⟩ ∧ r'.order = ⟨protocol, .at i⟩ := by
  by_cases hnext : (∃ name, protocol.step? i = some ⟨name, .stream⟩) ∧
      (r.order.place.Faces i ∨ r.order.place = .drained i)
  · obtain ⟨⟨name, hstep⟩, hfaces | hdrained⟩ := hnext
    · exact ⟨name, hstep, (enter_facing hr hstep hfaces h).2⟩
    · rw [enter_drained hstep (by rw [hr.order_eq, hdrained])] at h
      cases h
  · obtain ⟨refusal, hentry⟩ := Reader.stream_entry_refused hr.order_eq hnext
    rw [enter_refused hentry] at h
    cases h

/-- A single read that finds no item finishes the step. -/
theorem readItem_none (hr : r.InOrder protocol) (hstep : protocol.step? i = some ⟨name, .stream⟩)
    (hplace : r.order.place.Faces i ∨ r.order.place = .drained i)
    (h : intake.readItem i r = .ok none r') : r'.Ended protocol (.at (i + 1)) := by
  obtain ⟨turn, r₁, henter, h⟩ := bind_ok.mp h
  rcases hplace with hfaces | hdrained
  · obtain ⟨rfl, ho⟩ := enter_facing hr hstep hfaces henter
    simp only [takeItem] at h
    split at h
    · next hrem =>
      cases h
      constructor
      · rw [ho]
        rfl
      · exact hrem
    · split at h <;> cases h
  · have ho : r.order = ⟨protocol, .drained i⟩ := by rw [hr.order_eq, hdrained]
    rw [enter_drained hstep ho] at henter
    cases henter
    obtain ⟨-, rfl⟩ := pure_ok.mp h
    exact ⟨rfl, (hr.of_odd (Reader.cursor_eq ho)).2⟩

/-- A batch read that finds no item finishes the step only where the end was known. -/
theorem readBatch_none (hr : r.InOrder protocol) (hstep : protocol.step? i = some ⟨name, .stream⟩)
    (hplace : r.order.place.Faces i ∨ r.order.place = .drained i) (hmax : 1 ≤ max) {turns : Nat}
    (h : intake.readBatch i max turns r = some (.ok none r')) :
    (r.order.place.Faces i ∧ r'.Ended protocol (.drained i)) ∨
      (r.order.place = .drained i ∧ r'.Ended protocol (.at (i + 1))) := by
  rw [readBatch, if_neg (Nat.one_le_iff_ne_zero.mp hmax)] at h
  rcases hplace with hfaces | hdrained
  · refine .inl ⟨hfaces, ?_⟩
    cases henter : enter i r with
    | error error r₁ =>
      rw [henter] at h
      cases h
    | ok turn r₁ =>
      obtain ⟨rfl, ho⟩ := enter_facing hr hstep hfaces henter
      rw [henter] at h
      obtain ⟨⟨_ | _, items⟩, hfill, h⟩ := Option.map_eq_some_iff.mp h
      · next r₂ =>
        have ho₂ : r₂.order = r₁.order :=
          fill_ends intake.failsIn_any (fun _ _ => trivial) hfill
        simp only [report, Reader.endBatch] at h
        split at h
        · next hrem =>
          split at h
          · cases h
          · cases h
            constructor
            · show r₂.order.drain i = ⟨protocol, .drained i⟩
              rw [ho₂, ho]
              rfl
            · exact hrem
        · cases h
      · cases h
  · have ho : r.order = ⟨protocol, .drained i⟩ := by rw [hr.order_eq, hdrained]
    rw [enter_drained hstep ho] at h
    cases h
    exact .inr ⟨hdrained, rfl, (hr.of_odd (Reader.cursor_eq ho)).2⟩

end

-- ---------------------------------------------------------------------------
-- Batches of items that are taken one by one
-- ---------------------------------------------------------------------------

/-- Single reads of a stream, one after the other, deliver these items. -/
inductive Delivers (intake : Intake α) (i : Nat) :
    Reader InputStream → List α → Reader InputStream → Prop
  | nil {r} : Delivers intake i r [] r
  | cons {r r₁ r' item items} : intake.readItem i r = .ok (some item) r₁ →
      Delivers intake i r₁ items r' → Delivers intake i r (item :: items) r'

section
variable {intake : Intake α} {one : EStateM Error InputStream α} {r r' s : Reader InputStream}
  {protocol : Protocol} {i : Nat} {name : String} {item : α} {items : List α}

theorem readItem_some (h : intake.readItem i r = .ok (some item) r') :
    ∃ s input, enter i r = .ok .proceed s ∧ s.remaining ≠ 0 ∧
      intake.one s.input = .ok item input ∧
      r' = { s with input, remaining := s.remaining - 1 } := by
  obtain ⟨turn, s, henter, h⟩ := bind_ok.mp h
  cases turn with
  | finished => cases (pure_ok.mp h).1
  | proceed =>
    simp only [takeItem] at h
    split at h
    · cases h
    next hopen =>
    split at h
    · next hitem =>
      cases h
      unfold onInput at hitem
      split at hitem
      · next hone =>
        cases hitem
        exact ⟨s, _, henter, hopen, hone, rfl⟩
      · cases hitem
    · cases h

/-- Inside the stream a read begins with its block. -/
theorem enter_inside (hstep : protocol.step? i = some ⟨name, .stream⟩)
    (ho : s.order = ⟨protocol, .at i⟩) :
    enter i s = (ensureBlock >>= fun _ => pure .proceed) s := by
  simp only [enter, bind, EStateM.bind, Reader.authorize_run (congrArg _ ho) hstep,
    Reader.beginStream_run ho (.inl rfl), ← ho]

theorem enter_open (hstep : protocol.step? i = some ⟨name, .stream⟩)
    (ho : s.order = ⟨protocol, .at i⟩) (hopen : s.remaining ≠ 0) :
    enter i s = .ok .proceed s := by
  rw [enter_inside hstep ho]
  simp only [bind, EStateM.bind, ensureBlock, if_neg hopen]
  rfl

theorem readItem_entered (hstep : protocol.step? i = some ⟨name, .stream⟩)
    (ho : s.order = ⟨protocol, .at i⟩) (hopen : s.remaining ≠ 0)
    (henter : enter i r = .ok .proceed s) : intake.readItem i s = intake.readItem i r := by
  simp only [readItem, bind, EStateM.bind, enter_open hstep ho hopen, henter]

theorem Delivers.run (hstep : protocol.step? i = some ⟨name, .stream⟩)
    (ho : s.order = ⟨protocol, .at i⟩) (h : (single one).Delivers i s items r') {now : Nat}
    (hopen : now ≤ s.remaining) (hle : now ≤ items.length) :
    ∃ input, repeated one now s.input = .ok (items.take now) input ∧
      (single one).Delivers i { s with input, remaining := s.remaining - now } (items.drop now)
        r' := by
  induction now generalizing s items with
  | zero => exact ⟨s.input, rfl, h⟩
  | succ now ih =>
    cases h with
    | nil => cases hle
    | cons hread hrest =>
      obtain ⟨s₁, input, henter, -, hone, rfl⟩ := readItem_some hread
      rw [enter_open hstep ho (by omega)] at henter
      cases henter
      obtain ⟨input', hmany, hdelivers⟩ :=
        ih (s := { s with input, remaining := s.remaining - 1 }) ho hrest
          (Nat.le_sub_one_of_lt hopen) (Nat.le_of_succ_le_succ hle)
      refine ⟨input', bind_ok.mpr ⟨_, input, hone, bind_ok.mpr ⟨_, input', hmany, rfl⟩⟩, ?_⟩
      rw [Nat.sub_sub, Nat.add_comm 1] at hdelivers
      exact hdelivers

theorem Delivers.opens (hstep : protocol.step? i = some ⟨name, .stream⟩)
    (ho : s.order = ⟨protocol, .at i⟩) (h : intake.Delivers i s items r') (hne : items ≠ []) :
    ∃ t, ensureBlock s = .ok () t ∧ t.order = ⟨protocol, .at i⟩ ∧ t.remaining ≠ 0 ∧
      intake.Delivers i t items r' := by
  cases h with
  | nil => exact absurd rfl hne
  | cons hread hrest =>
    obtain ⟨t, input, henter, hopen, hone, rfl⟩ := readItem_some hread
    have hblock := henter
    rw [enter_inside hstep ho] at hblock
    obtain ⟨⟨⟩, t', hblock, hdone⟩ := bind_ok.mp hblock
    cases hdone
    have ho' : t.order = ⟨protocol, .at i⟩ := by
      have hends := Reader.ensureBlock_ends (r := s) (E := fun _ => True) fun _ _ => trivial
      rw [hblock] at hends
      exact hends.trans ho
    refine ⟨t, hblock, ho', hopen, .cons ?_ hrest⟩
    rw [readItem_entered hstep ho' hopen henter, hread]

/-- The items are found, and then comes what opening the block behind them comes to. -/
theorem Delivers.fill (hstep : protocol.step? i = some ⟨name, .stream⟩)
    (ho : s.order = ⟨protocol, .at i⟩) (hopen : s.remaining ≠ 0)
    (h : (single one).Delivers i s items r') (hne : items ≠ []) (found : List α) :
    Halts ((single one).fill (found.length + items.length) · found s)
      (ensureBlock r', found ++ items) := by
  -- Each turn takes at least one item, so the induction is on how many there are.
  induction hlength : items.length using Nat.strongRecOn generalizing s items found with
  | ind length ih =>
    subst hlength
    have hpos := List.length_pos_iff.mpr hne
    obtain ⟨now, hnow⟩ : ∃ now, now = min s.remaining items.length := ⟨_, rfl⟩
    have hle : now ≤ s.remaining := by omega
    obtain ⟨input, hmany, hrest⟩ := h.run hstep ho hle (by omega)
    have hread : onInput ((single one).many now) s = .ok (items.take now) { s with input } :=
      Reader.onInput_run hmany
    obtain ⟨s', hs'⟩ : ∃ s' : Reader InputStream,
        s' = { s with input, remaining := s.remaining - now } := ⟨_, rfl⟩
    rw [← hs'] at hrest
    have hgo : ¬ (found.length + items.length ≤ found.length ∨ s.remaining = 0) := by omega
    have hagain : ∀ t, ensureBlock s' = .ok () t →
        (single one).fillTurn (found.length + items.length) (found, s) =
          .again (found ++ items.take now, t) := by
      intro t hblock
      simp only [fillTurn, if_neg hgo, Nat.add_sub_cancel_left, ← hnow, hread]
      rw [← hs', hblock]
    by_cases hall : now = items.length
    · rw [hall, List.drop_length] at hrest
      cases hrest
      cases hblock : ensureBlock r' with
      | error error t =>
        refine halts_loop_stop (.of_some fun _ => ?_)
        simp only [fillTurn, if_neg hgo, Nat.add_sub_cancel_left, ← hnow, hread]
        rw [← hs', hblock, hall, List.take_length]
      | ok _ t =>
        rw [hall, List.take_length] at hagain
        refine halts_loop_again (.of_some fun _ => congrArg some (hagain t hblock)) ?_
        refine halts_loop_stop (.of_some fun _ => ?_)
        rw [fillTurn, if_pos (.inl (Nat.le_of_eq List.length_append.symm))]
    · -- The block is used up, and the next read opens another.
      have hclosed : s'.remaining = 0 := by
        rw [hs']
        show s.remaining - now = 0
        omega
      have ho' : s'.order = ⟨protocol, .at i⟩ := by rw [hs', ← ho]
      obtain ⟨t, hblock, ho₁, hopen₁, hdelivers⟩ :=
        hrest.opens hstep ho' (by rw [ne_eq, List.drop_eq_nil_iff]; omega)
      have hlater := ih (items.drop now).length (by rw [List.length_drop]; omega) ho₁ hopen₁
        hdelivers (by rw [ne_eq, List.drop_eq_nil_iff]; omega) (found ++ items.take now) rfl
      refine halts_loop_again (.of_some fun _ => congrArg some (hagain t hblock)) ?_
      rw [List.length_append, Nat.add_assoc, ← List.length_append, List.take_append_drop,
        List.append_assoc, List.take_append_drop] at hlater
      exact hlater

/-- A batch read delivers what single reads deliver, and opens the next block at once. -/
theorem Delivers.readBatch (hr : r.InOrder protocol) (h : (single one).Delivers i r items r')
    (hne : items ≠ []) :
    Halts ((single one).readBatch i items.length · r) (report i (ensureBlock r', items)) := by
  cases h with
  | nil => exact absurd rfl hne
  | @cons _ r₁ _ item items hread hrest =>
    obtain ⟨s, input, henter, hopen, hone, rfl⟩ := readItem_some hread
    obtain ⟨name, hstep, ho⟩ := enter_inv hr henter
    have hdelivers : (single one).Delivers i s (item :: items) r' := by
      refine .cons ?_ hrest
      rw [readItem_entered hstep ho hopen henter, hread]
    have hfill := hdelivers.fill hstep ho hopen hne []
    rw [List.length_nil, Nat.zero_add, List.nil_append] at hfill
    simp only [Intake.readBatch, henter, List.length_cons, Nat.succ_ne_zero, if_false]
    exact hfill.map _

end

-- ---------------------------------------------------------------------------
-- Calls
-- ---------------------------------------------------------------------------

def batchAnswer : EStateM.Result Error (Reader InputStream) (Option (List Value)) →
    EStateM.Result Error (Reader InputStream) Answer
  | .ok (some items) r => .ok (.items true items) r
  | .ok none r => .ok (.items false []) r
  | .error error r => .error error r

/-- What the call may come to if the programs are in place of its decoder. -/
def ComesTo (intake : Intake Value) (r : Reader InputStream) :
    ReadCall → EStateM.Result Error (Reader InputStream) Answer → Prop
  | .step _ _ i, result => (Answer.value <$> intake.readStep i) r = result
  | .item _ _ i, result => (Answer.item <$> intake.readItem i) r = result
  | .items _ _ i max _, result =>
    ∃ turns found, intake.readBatch i max turns r = some found ∧ batchAnswer found = result

section
variable {intake : Intake Value} {r r' : Reader InputStream} {protocol : Protocol}
  {call : ReadCall}

theorem comesTo_items {type : Ty} {decoder : StepDecoder Value} {i max : Nat} {seed : List Value}
    {found : EStateM.Result Error (Reader InputStream) (Option (List Value))}
    (h : ∀ turns, intake.readBatch i max turns r = some found)
    (result : EStateM.Result Error (Reader InputStream) Answer) :
    intake.ComesTo r (.items type decoder i max seed) result ↔ result = batchAnswer found := by
  constructor
  · rintro ⟨turns, found', hfound, rfl⟩
    rw [h turns] at hfound
    cases hfound
    rfl
  · rintro rfl
    exact ⟨0, found, h 0, rfl⟩

/-- A call that is not next comes to its refusal, whatever the programs, and to nothing else. -/
theorem comesTo_refused (hr : r.InOrder protocol) (h : ¬ call.Admitted protocol r.cursor) :
    ∃ error, call.Refusal error ∧
      ∀ (intake : Intake Value) (result : EStateM.Result Error (Reader InputStream) Answer),
        intake.ComesTo r call result ↔ result = .error error r := by
  by_cases hroomy : call.Roomy
  · simp only [ReadCall.Refusal, if_pos hroomy]
    cases call with
    | step type decoder i =>
      have hnext : ¬ ((∃ name, protocol.step? i = some ⟨name, .scalar⟩) ∧ r.order.place.Faces i) :=
        fun hnext => h (Reader.admitted_of_place hroomy hnext.1 (.inl hnext.2))
      obtain ⟨refusal, hentry⟩ := Reader.scalar_entry_refused hr.order_eq hnext
      have hrefused : ∀ intake : Intake Value,
          intake.readStep i r = .error (.protocol refusal) r := by
        intro intake
        rcases hentry with hrefused | ⟨hallowed, hrefused⟩
        · exact bind_error.mpr (.inl hrefused)
        · exact bind_error.mpr (.inr ⟨(), r, hallowed, bind_error.mpr (.inl hrefused)⟩)
      refine ⟨_, ⟨refusal, rfl⟩, fun intake result => ?_⟩
      simp only [ComesTo, Reader.map_error (hrefused intake), eq_comm]
    | item type decoder i =>
      obtain ⟨refusal, hentry⟩ :=
        Reader.stream_entry_refused hr.order_eq (Reader.not_next_of_stream hroomy rfl h)
      have hrefused : ∀ intake : Intake Value,
          intake.readItem i r = .error (.protocol refusal) r :=
        fun intake => bind_error.mpr (.inl (enter_refused hentry))
      refine ⟨_, ⟨refusal, rfl⟩, fun intake result => ?_⟩
      simp only [ComesTo, Reader.map_error (hrefused intake), eq_comm]
    | items type decoder i max seed =>
      obtain ⟨refusal, hentry⟩ :=
        Reader.stream_entry_refused hr.order_eq (Reader.not_next_of_stream hroomy rfl h)
      have hmax : max ≠ 0 := Nat.one_le_iff_ne_zero.mp hroomy
      have henter : enter i r = .error (.protocol refusal) r := enter_refused hentry
      have hrefused : ∀ (intake : Intake Value) turns,
          intake.readBatch i max turns r = some (.error (.protocol refusal) r) := by
        intro intake turns
        rw [readBatch, if_neg hmax, henter]
      exact ⟨_, ⟨refusal, rfl⟩, fun intake => comesTo_items (hrefused intake)⟩
  · simp only [ReadCall.Refusal, if_neg hroomy]
    cases call with
    | step | item => exact absurd trivial hroomy
    | items type decoder i max seed =>
      obtain rfl : max = 0 := Nat.eq_zero_of_not_pos hroomy
      have hrefused : ∀ (intake : Intake Value) turns,
          intake.readBatch i 0 turns r = some (.error .zeroCapacity r) := by
        intro intake turns
        rw [readBatch, if_pos rfl]
      exact ⟨_, rfl, fun intake => comesTo_items (hrefused intake)⟩

theorem comesTo_leads (hr : r.InOrder protocol)
    {result : EStateM.Result Error (Reader InputStream) Answer} (h : intake.ComesTo r call result) :
    Ends (r.Leads protocol) (fun _ => True) result := by
  by_cases hadmitted : call.Admitted protocol r.cursor
  · obtain ⟨name, hstep⟩ := hadmitted.step
    have hplace := Reader.place_of_admitted hadmitted
    cases call with
    | step type decoder i =>
      have hread := readStep_ends intake.failsIn_any hr hstep (Reader.faces_of_admitted hadmitted)
      exact h ▸ hread.map _
    | item type decoder i =>
      have hread := readItem_ends intake.failsIn_any (fun _ _ => trivial) hr hstep hplace
      exact h ▸ hread.map _
    | items type decoder i max seed =>
      obtain ⟨turns, found, hfound, rfl⟩ := h
      have hread := readBatch_ends intake.failsIn_any (fun _ _ => trivial) hr hstep hplace
        hadmitted.roomy hfound
      rcases found with ⟨_ | items, r'⟩ | ⟨error, r'⟩
      · exact hread
      · exact hread
      · exact hread
  · obtain ⟨error, -, hrefused⟩ := comesTo_refused hr hadmitted
    rw [(hrefused intake result).mp h]
    exact ⟨hr.leads_self, trivial⟩

/-- After a call that reports the end no block is open, and the place tells who has found it. -/
theorem comesTo_ended (hr : r.InOrder protocol) {found : Answer}
    (h : intake.ComesTo r call (.ok found r')) (hend : found.ReportsEnd) :
    (call.FindsEnd r.cursor ∧ r'.Ended protocol (.drained call.target)) ∨
    (¬ call.FindsEnd r.cursor ∧ r'.Ended protocol (.at (call.target + 1))) := by
  have hadmitted : call.Admitted protocol r.cursor := by
    by_contra hnot
    obtain ⟨error, -, hrefused⟩ := comesTo_refused hr hnot
    cases (hrefused intake _).mp h
  obtain ⟨name, hstep⟩ := hadmitted.step
  have hplace := Reader.place_of_admitted hadmitted
  cases call with
  | step type decoder i =>
    obtain ⟨value, -, rfl⟩ := map_inv h
    exact hend.elim
  | item type decoder i =>
    obtain ⟨item, hread, rfl⟩ := map_inv h
    obtain rfl : item = none := hend
    exact .inr ⟨id, readItem_none hr hstep hplace hread⟩
  | items type decoder i max seed =>
    obtain ⟨turns, ⟨_ | items, r'⟩ | _, hread, hanswer⟩ := h
    · cases hanswer
      rcases readBatch_none hr hstep hplace hadmitted.roomy hread with
        ⟨hfaces, hended⟩ | ⟨hdrained, hended⟩
      · have hle : r.cursor ≤ 2 * i := ReadPlace.code_le_of_faces hfaces
        exact .inl ⟨Nat.ne_of_lt (Nat.lt_succ_of_le hle), hended⟩
      · exact .inr ⟨fun hfinds => hfinds (ReadPlace.drained_iff.mp hdrained), hended⟩
    · cases hanswer
      cases hend
    · cases hanswer

end

/-- The programs of a call's own decoder. -/
def ofCall : ReadCall → Intake Value
  | .step type decoder _ => decoder.intake type.codec
  | .item type decoder _ => decoder.intake type.codec
  | .items type decoder .. => decoder.intake type.codec

theorem batchAnswer_readBatch (type : Ty) (decoder : StepDecoder Value) (i max : Nat)
    (seed : List Value) (r : Reader InputStream) :
    batchAnswer (Reader.readBatch type.codec decoder i max r) =
      Reader.answer (.items type decoder i max seed) r := by
  simp only [Reader.readBatch, Reader.answer, Reader.readItems]
  by_cases hmax : max = 0
  · simp only [if_pos hmax, batchAnswer]
  simp only [if_neg hmax]
  cases Reader.authorize i .stream r with
  | error => rfl
  | ok _ r =>
    dsimp only
    cases Reader.beginStream i r with
    | error => rfl
    | ok turn r =>
      cases turn with
      | finished => rfl
      | proceed =>
        dsimp only
        cases ensureBlock r with
        | error => rfl
        | ok _ r =>
          dsimp only
          rcases Reader.fillItems type.codec decoder max [] r with ⟨⟨_, s⟩ | _, items⟩
          · by_cases hrem : s.remaining = 0
            · simp only [Reader.endBatch, if_pos hrem]
              cases items <;> rfl
            · simp only [Reader.endBatch, if_neg hrem]
              rfl
          · rfl

theorem comesTo_answer (r : Reader InputStream) (call : ReadCall) :
    (ofCall call).ComesTo r call (Reader.answer call r) := by
  cases call with
  | step type decoder i =>
    simp only [ComesTo, ofCall, Reader.answer, Reader.readStep_eq]
  | item type decoder i =>
    simp only [ComesTo, ofCall, Reader.answer, Reader.readItem_eq]
  | items type decoder i max seed =>
    obtain ⟨enough, hread⟩ := Reader.readBatch_readBatch type decoder i max r
    exact ⟨enough, _, hread enough (Nat.le_refl _), batchAnswer_readBatch type decoder i max seed r⟩

end Intake

-- ---------------------------------------------------------------------------
-- Runs
-- ---------------------------------------------------------------------------

namespace Reader

/-- Calls by any programs may lead from the one reader to the other. -/
inductive Reached (r₀ : Reader InputStream) : Reader InputStream → Prop
  | start : Reached r₀ r₀
  | answered {r r' call intake found} : Reached r₀ r →
      Intake.ComesTo intake r call (.ok found r') → Reached r₀ r'
  | failed {r r' call intake error} : Reached r₀ r →
      Intake.ComesTo intake r call (.error error r') → Reached r₀ r'

theorem Reached.leads {r₀ r : Reader InputStream} {protocol : Protocol} (h₀ : r₀.InOrder protocol)
    (h : Reached r₀ r) : r₀.Leads protocol r := by
  induction h with
  | start => exact h₀.leads_self
  | answered _ hcall ih =>
    have hleads : Leads _ protocol _ := Intake.comesTo_leads ih.inOrder hcall
    exact hleads.trans ih.cursor_le
  | failed _ hcall ih =>
    have hends := Intake.comesTo_leads ih.inOrder hcall
    exact hends.1.trans ih.cursor_le

/-- After reads by any programs, on whatever bytes, a reader stands where a reader of the protocol
can stand, and has not gone back. It refuses the calls that are not next, whatever the programs,
and stays as it is. A call that reports the end of a stream leaves no block open, and finishes the
step unless it is a batch read that has found the end itself. -/
theorem Reached.in_order {protocol : Protocol} {input : InputStream} {r₀ r : Reader InputStream}
    (hopen : Reader.open protocol input = .ok r₀) (h : Reached r₀ r) :
    r.InOrder protocol ∧ r₀.cursor ≤ r.cursor ∧
    ∀ call : ReadCall,
      (¬ call.Admitted protocol r.cursor →
        ∃ error, call.Refusal error ∧ ∀ (intake : Intake Value) result,
          intake.ComesTo r call result ↔ result = .error error r) ∧
      ∀ (intake : Intake Value) found r', intake.ComesTo r call (.ok found r') →
        found.ReportsEnd →
        (call.FindsEnd r.cursor → r'.Ended protocol (.drained call.target)) ∧
        (¬ call.FindsEnd r.cursor → r'.Ended protocol (.at (call.target + 1))) := by
  have hleads := h.leads (open_inOrder hopen)
  refine ⟨hleads.inOrder, hleads.cursor_le, fun call => ⟨Intake.comesTo_refused hleads.inOrder, ?_⟩⟩
  intro intake found r' hcall hend
  rcases Intake.comesTo_ended hleads.inOrder hcall hend with ⟨hfinds, hended⟩ | ⟨hfinds, hended⟩
  · exact ⟨fun _ => hended, fun hnot => absurd hfinds hnot⟩
  · exact ⟨fun hfound => absurd hfound hfinds, fun _ => hended⟩

/-- Where single reads by a program deliver items, a batch read that takes them one by one delivers
them, and then comes what opening the block behind them comes to. -/
theorem Reached.batch_delivers {protocol : Protocol} {input : InputStream}
    {r₀ r r' : Reader InputStream} (hopen : Reader.open protocol input = .ok r₀)
    (h : Reached r₀ r) {one : EStateM Error InputStream α} {i : Nat} {items : List α}
    (hitems : (Intake.single one).Delivers i r items r') (hne : items ≠ []) :
    Halts ((Intake.single one).readBatch i items.length · r)
      (Intake.report i (ensureBlock r', items)) :=
  hitems.readBatch (h.leads (open_inOrder hopen)).inOrder hne

end Reader

end TypedStream
