import TypedStream.Proofs.Index.Segments
import TypedStream.Proofs.Index.Recording

/-!
# An index accounts for what has been written

At any time before a writer is closed, and whatever calls have been refused, its index says of every
step where its first segment is, where its items are, and how many items there were in front of each
of its counts; and it says nothing else (`Writer.index_accounts`). What an accepted call makes the
index record is just what its segments add (`WriteCall.Group.tellsOf`), and a refused one leaves
the writer as it was.
-/

namespace TypedStream

-- ---------------------------------------------------------------------------
-- What an index says
-- ---------------------------------------------------------------------------

namespace StreamIndex

/-- The tables are maps, and a stream without items is in none of the last two. -/
structure Tables (index : StreamIndex) : Prop where
  steps_ascend : Assoc.Ascending index.steps
  items_ascend : Assoc.Ascending index.items
  blocks_ascend : Assoc.Ascending index.blocks
  items_filled : ∀ e ∈ index.items, e.2 ≠ []
  blocks_filled : ∀ e ∈ index.blocks, e.2 ≠ []

/-- The index accounts for segments that start at `origin`, and for nothing else: it has the place
of each step's first segment, the place of each item, and the number of items in front of each
count. -/
structure Accounts (index : StreamIndex) (steps : List Step) (origin : Nat)
    (segments : List Segment) : Prop where
  step_iff : ∀ i step, steps[i]? = some step → ∀ offset,
    index.stepOffset step.name = .ok offset ↔
      ∃ front, Nth (Segment.ofStep i) 0 segments front ∧ offset = origin + Segment.size front
  item_iff : ∀ i step, steps[i]? = some step → ∀ k offset,
    (index.itemsOf step.name)[k]? = some offset ↔
      ∃ front, Nth (Segment.isItem i) k segments front ∧ offset = origin + Segment.size front
  block_iff : ∀ i step, steps[i]? = some step → ∀ k first,
    (index.blocksOf step.name)[k]? = some first ↔
      ∃ front, Nth (Segment.isCount i) k segments front ∧ first = front.countP (Segment.isItem i)
  foreign : ∀ name, name ∉ steps.map Step.name →
    (∀ offset, index.stepOffset name ≠ .ok offset) ∧ index.itemsOf name = [] ∧
      index.blocksOf name = []
  tables : index.Tables

section
variable {index : StreamIndex} {name label : String} {origin i j : Nat}
  {segments more : List Segment}

theorem tables_empty : Tables {} := ⟨trivial, trivial, trivial, by simp, by simp⟩

theorem Tables.markStep (h : index.Tables) (name : String) (offset : Nat) :
    (index.markStep name offset).Tables :=
  { h with steps_ascend := Assoc.ascending_alter h.steps_ascend _ _ }

theorem Tables.addBlock (h : index.Tables) (name : String) {offsets : List Nat}
    (hne : offsets ≠ []) : (index.addBlock name offsets).Tables where
  steps_ascend := h.steps_ascend
  items_ascend := Assoc.ascending_alter h.items_ascend _ _
  blocks_ascend := Assoc.ascending_alter h.blocks_ascend _ _
  items_filled := by
    intro e he
    rcases Assoc.mem_alter he with rfl | he
    · exact List.append_ne_nil_of_right_ne_nil _ hne
    · exact h.items_filled e he
  blocks_filled := by
    intro e he
    rcases Assoc.mem_alter he with rfl | he
    · exact List.append_ne_nil_of_right_ne_nil _ (List.cons_ne_nil _ _)
    · exact h.blocks_filled e he

theorem stepOffset_eq_ok {offset : Nat} :
    index.stepOffset name = .ok offset ↔ Assoc.find? name index.steps = some offset := by
  unfold stepOffset
  cases Assoc.find? name index.steps <;> simp

/-- The index says of a name what segments of a step make it say. -/
def TellsOf (index : StreamIndex) (name : String) (origin i : Nat) (segments : List Segment) :
    Prop :=
  index.Tells name (Segment.startIn origin i segments) (Segment.itemsIn origin i segments)
    (Segment.blocksIn i segments)

theorem TellsOf.other (h : index.TellsOf name origin i segments)
    (hother : ∀ segment ∈ more, segment.step ≠ i) :
    index.TellsOf name origin i (segments ++ more) := by
  rw [TellsOf, Segment.startIn_append, Segment.itemsIn_append, Segment.blocksIn_append,
    Segment.startIn_eq_none hother, Segment.itemsIn_eq_nil hother, Segment.blocksIn_eq_nil hother,
    Option.or_none, List.append_nil, List.map_nil, List.append_nil]
  exact h

theorem TellsOf.mark (h : index.TellsOf name origin j segments) (hlabel : label = name ↔ i = j)
    {role : Role} (hitem : role ≠ .item) (hcount : role ≠ .count) (bytes : Bytes) :
    (index.markStep label (origin + Segment.size segments)).TellsOf name origin j
      (segments ++ [⟨i, role, bytes⟩]) := by
  by_cases hij : i = j
  · subst hij
    obtain rfl := hlabel.mpr rfl
    have hstart : ∀ pos, Segment.startIn pos i [⟨i, role, bytes⟩] = some pos := fun pos => by
      simp [Segment.startIn, fronts, Segment.ofStep, Segment.size]
    have hitems : ∀ pos, Segment.itemsIn pos i [⟨i, role, bytes⟩] = [] := fun pos => by
      simp [Segment.itemsIn, fronts, Segment.isItem, hitem]
    have hblocks : Segment.blocksIn i [⟨i, role, bytes⟩] = [] := by
      simp [Segment.blocksIn, fronts, Segment.isCount, hcount]
    rw [TellsOf, Segment.startIn_append, Segment.itemsIn_append, Segment.blocksIn_append, hstart,
      hitems, hblocks, Option.or_some, List.append_nil, List.map_nil, List.append_nil]
    exact h.markStep _
  · have hne : name ≠ label := fun heq => hij (hlabel.mp heq.symm)
    exact TellsOf.other (h.markStep_ne hne _) (by simpa using hij)

theorem TellsOf.block (h : index.TellsOf name origin j segments) (hlabel : label = name ↔ i = j)
    (type : Ty) (values : List Value) :
    ((index.markStep label (origin + Segment.size segments)).addBlock label
      (type.codec.starts (origin + Segment.size segments + (varint values.length).length)
        values)).TellsOf name origin j (segments ++ Segment.block type i values) := by
  by_cases hij : i = j
  · subst hij
    obtain rfl := hlabel.mpr rfl
    have htells := (h.markStep (origin + Segment.size segments)).addBlock
      (type.codec.starts (origin + Segment.size segments + (varint values.length).length) values)
    rw [Segment.length_itemsIn] at htells
    rw [TellsOf, Segment.startIn_append, Segment.itemsIn_append, Segment.blocksIn_append,
      Segment.startIn_block, Segment.itemsIn_block, Segment.blocksIn_block, Option.or_some]
    exact htells
  · have hne : name ≠ label := fun heq => hij (hlabel.mp heq.symm)
    refine TellsOf.other ((h.markStep_ne hne _).addBlock_ne hne _) fun segment hsegment => ?_
    rwa [Segment.step_of_mem_block hsegment]

/-- What is found in a table without empty lists is what is listed, if anything is. -/
theorem eq_of_getD_eq {found found' : Option (List Nat)} (h : ∀ l ∈ found, l ≠ [])
    (h' : ∀ l ∈ found', l ≠ []) (heq : found.getD [] = found'.getD []) : found = found' := by
  cases found <;> cases found' <;> simp_all [eq_comm]

theorem find?_table_ne_nil {table : List (String × List Nat)} (h : ∀ e ∈ table, e.2 ≠ [])
    (name : String) : ∀ l ∈ Assoc.find? name table, l ≠ [] := fun _ hl =>
  h _ (Assoc.mem_of_find? hl)

/-- No two indexes account for the same segments. -/
theorem Accounts.unique {index' : StreamIndex} {steps : List Step}
    (h : index.Accounts steps origin segments) (h' : index'.Accounts steps origin segments) :
    index = index' := by
  have hof : ∀ name, index.itemsOf name = index'.itemsOf name ∧
      index.blocksOf name = index'.blocksOf name ∧
      Assoc.find? name index.steps = Assoc.find? name index'.steps := by
    intro name
    by_cases hname : name ∈ steps.map Step.name
    · obtain ⟨step, hstep, rfl⟩ := List.mem_map.mp hname
      obtain ⟨i, hi⟩ := List.getElem?_of_mem hstep
      refine ⟨List.ext_getElem? fun k => Option.ext fun offset => ?_,
        List.ext_getElem? fun k => Option.ext fun first => ?_, Option.ext fun offset => ?_⟩
      · exact (h.item_iff i step hi k offset).trans (h'.item_iff i step hi k offset).symm
      · exact (h.block_iff i step hi k first).trans (h'.block_iff i step hi k first).symm
      · rw [← stepOffset_eq_ok, ← stepOffset_eq_ok]
        exact (h.step_iff i step hi offset).trans (h'.step_iff i step hi offset).symm
    · obtain ⟨hstep, hitems, hblocks⟩ := h.foreign name hname
      obtain ⟨hstep', hitems', hblocks'⟩ := h'.foreign name hname
      refine ⟨hitems.trans hitems'.symm, hblocks.trans hblocks'.symm, Option.ext fun offset => ?_⟩
      rw [← stepOffset_eq_ok, ← stepOffset_eq_ok]
      exact ⟨fun hok => absurd hok (hstep offset), fun hok => absurd hok (hstep' offset)⟩
  have hsteps : index.steps = index'.steps :=
    Assoc.eq_of_find? h.tables.steps_ascend h'.tables.steps_ascend fun name => (hof name).2.2
  have hitems : index.items = index'.items :=
    Assoc.eq_of_find? h.tables.items_ascend h'.tables.items_ascend fun name =>
      eq_of_getD_eq (find?_table_ne_nil h.tables.items_filled name)
        (find?_table_ne_nil h'.tables.items_filled name) (hof name).1
  have hblocks : index.blocks = index'.blocks :=
    Assoc.eq_of_find? h.tables.blocks_ascend h'.tables.blocks_ascend fun name =>
      eq_of_getD_eq (find?_table_ne_nil h.tables.blocks_filled name)
        (find?_table_ne_nil h'.tables.blocks_filled name) (hof name).2.1
  cases index
  cases index'
  simp only at hsteps hitems hblocks
  rw [hsteps, hitems, hblocks]

end

end StreamIndex

-- ---------------------------------------------------------------------------
-- What a call makes it say
-- ---------------------------------------------------------------------------

/-- Of the steps just step `i` has this name. -/
def Protocol.Names (protocol : Protocol) (name : String) (i : Nat) : Prop :=
  ∀ k < protocol.stepCount, protocol.stepLabel k = name ↔ k = i

theorem Protocol.getElem?_names {protocol : Protocol} {k : Nat} (hk : k < protocol.stepCount) :
    (protocol.steps.map Step.name)[k]? = some (protocol.stepLabel k) := by
  have hlt : k < protocol.steps.length := hk
  simp [Protocol.stepLabel, Protocol.step?, hlt]

theorem Protocol.names_of_nodup {protocol : Protocol}
    (hnames : (protocol.steps.map Step.name).Nodup) {i : Nat} {step : Step}
    (hstep : protocol.steps[i]? = some step) : protocol.Names step.name i := by
  intro k hk
  have hi : (protocol.steps.map Step.name)[i]? = some step.name := by
    rw [List.getElem?_map, hstep]
    rfl
  have hlt : k < (protocol.steps.map Step.name).length := by
    rw [List.length_map]
    exact hk
  rw [← List.getElem?_inj hlt hnames, Protocol.getElem?_names hk, hi, Option.some.injEq]

theorem Protocol.names_foreign {protocol : Protocol} {name : String}
    (hname : name ∉ protocol.steps.map Step.name) : protocol.Names name protocol.stepCount := by
  intro k hk
  refine ⟨fun hlabel => absurd ?_ hname, fun heq => absurd heq (Nat.ne_of_lt hk)⟩
  rw [← hlabel]
  exact List.mem_of_getElem? (Protocol.getElem?_names hk)

namespace WriteCall

section
variable {protocol : Protocol} {index : StreamIndex} {segments more : List Segment}
  {record : Nat → StreamIndex → StreamIndex}

theorem Group.tables (h : Group protocol segments record) (htables : index.Tables) (pos : Nat) :
    (record pos index).Tables := by
  cases h with
  | nothing => exact htables
  | single => exact htables.markStep _ _
  | @block i type values hne =>
    refine (htables.markStep _ _).addBlock _ ?_
    cases values with
    | nil => exact absurd rfl hne
    | cons value values => exact List.cons_ne_nil _ _

theorem Group.tellsOf (h : Group protocol more record) {name : String} {origin i : Nat}
    (hbound : ∀ segment ∈ more, segment.step < protocol.stepCount) (hname : protocol.Names name i)
    (htells : index.TellsOf name origin i segments) :
    (record (origin + Segment.size segments) index).TellsOf name origin i (segments ++ more) := by
  cases h with
  | nothing => rwa [List.append_nil]
  | @single k role bytes hitem hcount =>
    exact htells.mark (hname k (hbound _ (List.mem_singleton_self _))) hitem hcount bytes
  | @block k type values hne =>
    exact htells.block (hname k (hbound _ List.mem_cons_self)) type values

end

end WriteCall

-- ---------------------------------------------------------------------------
-- Runs
-- ---------------------------------------------------------------------------

namespace Writer

/-- An indexed writer that has written `before` and accepted the calls `done`. -/
structure Keeps (w : Writer) (protocol : Protocol) (before : Bytes) (done : List WriteCall)
    (index : StreamIndex) : Prop where
  limit : w.out.sink.limit = none
  protocol_eq : w.order.protocol = protocol
  written : w.out.written = before ++ done.flatMap WriteCall.bytes
  pos : w.pos = before.length + Segment.size (done.flatMap WriteCall.segments)
  bound : ∀ segment ∈ done.flatMap WriteCall.segments, segment.step < protocol.stepCount
  index_eq : w.index = some index
  tables : index.Tables
  tells : ∀ name i, protocol.Names name i →
    index.TellsOf name before.length i (done.flatMap WriteCall.segments)

section
variable {w : Writer} {protocol : Protocol} {before : Bytes} {done : List WriteCall}
  {index : StreamIndex}

theorem Keeps.call (h : w.Keeps protocol before done index) (call : WriteCall) :
    (∃ w' index', runCall call w = .ok () w' ∧
      w'.Keeps protocol before (done ++ [call]) index') ∨
    ∃ refusal, runCall call w = .error (.protocol refusal) w := by
  by_cases hallowed : call.Allowed w.order.protocol.steps w.order.next
  · obtain ⟨w', hrun, hputs⟩ := runCall_puts h.limit hallowed
    rw [h.protocol_eq] at hallowed hputs
    have hpos : w'.pos = w.pos + call.bytes.length := hputs.out.pos
    have hgroup := WriteCall.group protocol call
    have hbound : ∀ segment ∈ call.segments, segment.step < protocol.stepCount :=
      fun segment => WriteCall.step_of_mem_segments hallowed
    refine .inl ⟨w', call.record protocol w.pos index, hrun, hputs.out.limit, ?_, ?_, ?_, ?_, ?_,
      hgroup.tables h.tables _, fun name i hname => ?_⟩
    · rw [hputs.order]
      exact h.protocol_eq
    · rw [hputs.out.written, h.written, List.flatMap_append, List.flatMap_singleton,
        List.append_assoc]
    · rw [hpos, h.pos, List.flatMap_append, List.flatMap_singleton, Segment.size_append,
        Nat.add_assoc, ← call.bytes_segments]
      rfl
    · rw [List.flatMap_append, List.flatMap_singleton]
      exact List.forall_mem_append.mpr ⟨h.bound, hbound⟩
    · rw [hputs.index, h.index_eq]
      rfl
    · rw [List.flatMap_append, List.flatMap_singleton, h.pos]
      exact hgroup.tellsOf hbound hname (h.tells name i hname)
  · obtain ⟨refusal, hrefused⟩ := runCall_refused hallowed
    exact .inr ⟨refusal, hrefused w rfl⟩

theorem Keeps.after (h : w.Keeps protocol before done index) (calls : List WriteCall) :
    ∃ index', (attempts calls w).2.Keeps protocol before (done ++ (attempts calls w).1) index' := by
  induction calls generalizing w done index with
  | nil => exact ⟨index, by simpa [attempts] using h⟩
  | cons call calls ih =>
    rcases h.call call with ⟨w', index', hrun, hkeeps⟩ | ⟨refusal, hrun⟩
    · simpa [attempts, hrun] using ih hkeeps
    · simpa [attempts, hrun] using ih h

theorem Opened.keeps {start : Bytes}
    (h : w.Opened protocol start start.length (some {})) :
    w.Keeps protocol (start ++ Header.bytes protocol.schema) [] {} where
  limit := h.limit
  protocol_eq := by rw [h.order]
  written := by
    rw [h.written]
    exact (List.append_nil _).symm
  pos := by
    rw [h.pos, List.length_append]
    rfl
  bound := by simp
  index_eq := h.index
  tables := StreamIndex.tables_empty
  tells name _ _ := StreamIndex.tells_empty name

theorem Keeps.accounts (hnames : (protocol.steps.map Step.name).Nodup)
    (h : w.Keeps protocol before done index) :
    index.Accounts protocol.steps before.length (done.flatMap WriteCall.segments) where
  step_iff i step hstep offset := by
    rw [StreamIndex.stepOffset_eq_ok,
      (h.tells step.name i (Protocol.names_of_nodup hnames hstep)).start_eq,
      Segment.startIn_eq_some]
  item_iff i step hstep k offset := by
    rw [(h.tells step.name i (Protocol.names_of_nodup hnames hstep)).items_eq,
      Segment.getElem?_itemsIn]
  block_iff i step hstep k first := by
    rw [(h.tells step.name i (Protocol.names_of_nodup hnames hstep)).blocks_eq,
      Segment.getElem?_blocksIn]
  foreign name hname := by
    have hnone : ∀ segment ∈ done.flatMap WriteCall.segments, segment.step ≠ protocol.stepCount :=
      fun segment hsegment => Nat.ne_of_lt (h.bound segment hsegment)
    have htells := h.tells name _ (Protocol.names_foreign hname)
    rw [StreamIndex.TellsOf, Segment.startIn_eq_none hnone, Segment.itemsIn_eq_nil hnone,
      Segment.blocksIn_eq_nil hnone] at htells
    refine ⟨fun offset hoffset => ?_, htells.items_eq, htells.blocks_eq⟩
    rw [StreamIndex.stepOffset_eq_ok, htells.start_eq] at hoffset
    cases hoffset
  tables := h.tables

end

/-- At any time, whatever calls have been refused, the index of a writer has the place of the first
segment of each step of which there is one, the place of each item, and for each count the number of
items in front of it; and no other index has just these. A step is in the index if anything has been
put down for it, its items are all counted, and its blocks start at 0 and in front of ever later
items. -/
theorem index_accounts (protocol : Protocol) (hnames : (protocol.steps.map Step.name).Nodup)
    {sink : Sink} (hlimit : sink.limit = none) (hpipe : sink.pipe = false) (bufferSize : Nat) :
    ∃ w₀, Writer.openIndexed protocol sink bufferSize = .ok w₀ ∧ ∀ calls : List WriteCall,
      let w := (attempts calls w₀).2
      let segments := (attempts calls w₀).1.flatMap WriteCall.segments
      let before := sink.bytes ++ Header.bytes protocol.schema
      w.out.written = before ++ segments.flatMap Segment.bytes ∧ w.pos = w.out.written.length ∧
      ∃ index, w.index = some index ∧
        index.Accounts protocol.steps before.length segments ∧
        (∀ i step, protocol.steps[i]? = some step →
          ((∃ offset, index.stepOffset step.name = .ok offset) ↔
            ∃ segment ∈ segments, segment.step = i) ∧
          (index.itemsOf step.name).length = segments.countP (Segment.isItem i) ∧
          (index.blocksOf step.name).Pairwise (· < ·) ∧
          (index.itemsOf step.name ≠ [] → (index.blocksOf step.name).head? = some 0)) ∧
        ∀ index' : StreamIndex,
          index'.Accounts protocol.steps before.length segments → index' = index := by
  obtain ⟨w₀, hopen, hopened⟩ := openIndexed_ok protocol hlimit hpipe bufferSize
  refine ⟨w₀, hopen, fun calls => ?_⟩
  obtain ⟨index, hkeeps⟩ := hopened.keeps.after calls
  rw [List.nil_append] at hkeeps
  have hwritten := hkeeps.written
  rw [← WriteCall.bytes_flatMap_segments] at hwritten
  have haccounts := hkeeps.accounts hnames
  refine ⟨hwritten, ?_, index, hkeeps.index_eq, haccounts, fun i step hstep => ?_,
    fun index' h => h.unique haccounts⟩
  · rw [hkeeps.pos, hwritten]
    exact List.length_append.symm
  · have htells := hkeeps.tells step.name i (Protocol.names_of_nodup hnames hstep)
    obtain ⟨hsorted, -, hfirst⟩ := WriteCall.blocksIn_sorted protocol (attempts calls w₀).1 i
    simp only [StreamIndex.stepOffset_eq_ok, htells.start_eq, htells.items_eq, htells.blocks_eq,
      Segment.exists_startIn, Segment.length_itemsIn, true_and]
    refine ⟨hsorted, fun hne => hfirst ?_⟩
    rw [← List.length_pos_iff, Segment.length_itemsIn] at hne
    exact hne

/-- With the calls for the file of ticks, behind three bytes: the label, a tick without bytes, and
the ends of the two streams. The refused calls and the batch of no items are not to be seen. -/
theorem index_accounts_ticks :
    ∃ w₀ index, Writer.openIndexed Ticks.protocol (.ofBytes [1, 2, 3]) 0 = .ok w₀ ∧
      (attempts Ticks.attempted w₀).2.index = some index ∧
      index.stepOffset "ticks" = .ok 19 ∧ (index.itemsOf "ticks").length = 1 ∧
      (index.itemsOf "ticks")[0]? = some 20 ∧ (index.blocksOf "ticks")[0]? = some 0 ∧
      index.itemsOf "counts" = [] := by
  have hsink : (Sink.ofBytes [1, 2, 3]).bytes = [1, 2, 3] := ByteLog.toList_ofList _
  obtain ⟨w₀, hopen, hcalls⟩ := index_accounts Ticks.protocol (by decide)
    (show (Sink.ofBytes [1, 2, 3]).limit = none from rfl) rfl 0
  obtain ⟨-, -, index, hindex, haccounts, hsteps, -⟩ := hcalls Ticks.attempted
  have hrun : (match Writer.openIndexed Ticks.protocol (.ofBytes [1, 2, 3]) 0 with
      | .error _ => []
      | .ok w₀ => (attempts Ticks.attempted w₀).1.flatMap WriteCall.segments) =
      [⟨0, .value, [1]⟩, ⟨1, .count, [1]⟩, ⟨1, .item, []⟩, ⟨1, .ending, [0]⟩,
        ⟨2, .ending, [0]⟩] := by decide +kernel
  simp only [hopen] at hrun
  have hbefore : ([1, 2, 3] ++ Header.bytes Ticks.protocol.schema).length = 18 := by decide +kernel
  rw [hrun, hsink, hbefore] at haccounts
  simp only [hrun] at hsteps
  obtain ⟨-, hticks, -⟩ := hsteps 1 ⟨"ticks", .stream⟩ rfl
  obtain ⟨-, hcounts, -⟩ := hsteps 2 ⟨"counts", .stream⟩ rfl
  refine ⟨w₀, index, hopen, hindex, ?_, hticks, ?_, ?_, List.eq_nil_of_length_eq_zero hcounts⟩
  · exact (haccounts.step_iff 1 _ rfl 19).mpr
      ⟨[⟨0, .value, [1]⟩], ⟨_, _, rfl, rfl, rfl⟩, rfl⟩
  · exact (haccounts.item_iff 1 _ rfl 0 20).mpr
      ⟨[⟨0, .value, [1]⟩, ⟨1, .count, [1]⟩], ⟨_, _, rfl, rfl, rfl⟩, rfl⟩
  · exact (haccounts.block_iff 1 _ rfl 0 0).mpr
      ⟨[⟨0, .value, [1]⟩], ⟨_, _, rfl, rfl, rfl⟩, rfl⟩

end Writer

end TypedStream
