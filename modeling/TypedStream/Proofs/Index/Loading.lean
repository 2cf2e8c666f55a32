import TypedStream.Proofs.Codec.Raises
import TypedStream.Proofs.Index.Section
import TypedStream.Proofs.Input.Seeking

/-!
# Loading an index

The last eight bytes of a content may point to a section that ends where they start. Such a
content has the index of that section, and no other content has one (`StreamIndex.load_exact`).
Loading finds it from wherever the input stands and leaves it there. Whatever else the content is,
loading reports a fault of the index.
-/

namespace TypedStream

theorem Decoder.run_error {decoder : Decoder α} {bytes : Bytes} {error : Error}
    (h : decoder.run bytes = .error error) : error = .endOfStream ∨ decoder.Raises error := by
  induction decoder generalizing bytes with
  | done value => cases h
  | fail raised =>
    cases h
    exact .inr rfl
  | need count next ih =>
    rw [run_need] at h
    split at h
    · exact (ih _ h).imp id fun hnext => ⟨_, hnext⟩
    · cases h
      exact .inl rfl

namespace StreamIndex

-- ---------------------------------------------------------------------------
-- Faults
-- ---------------------------------------------------------------------------

theorem orFault_ok {act : EStateM Error σ α} {s s' : σ} {value : α} (h : act s = .ok value s')
    (fault : Damage → IndexFault) : orFault act fault s = .ok value s' := by
  simp only [orFault, h]

theorem orFault_inv {act : EStateM Error σ α} {fault : Damage → IndexFault} {s t : σ} {value : α}
    (h : orFault act fault s = .ok value t) : act s = .ok value t := by
  unfold orFault at h
  split at h
  · next hact =>
    cases h
    exact hact
  · split at h <;> cases h

theorem orFault_error {act : EStateM Error σ α} {s s' : σ} {error : Error}
    (h : act s = .error error s')
    (hkind : error.damage?.isSome ∨ ∃ raised, error = .index raised)
    (fault : Damage → IndexFault) :
    ∃ reported, orFault act fault s = .error (.index reported) s' := by
  simp only [orFault, h]
  cases hdamage : error.damage? with
  | some damage => exact ⟨fault damage, rfl⟩
  | none =>
    rw [hdamage] at hkind
    obtain ⟨raised, rfl⟩ := hkind.resolve_left Bool.false_ne_true
    exact ⟨raised, rfl⟩

theorem sober_offsetTable : offsetTable.Sober :=
  Codec.sober_string.assoc (Codec.sober_single Decoder.sober_varint _)

theorem sober_listTable : listTable.Sober :=
  Codec.sober_string.assoc (Codec.sober_single Decoder.sober_varint _).list

theorem sober_readTables : readTables.Sober :=
  sober_offsetTable.read.bind fun _ => sober_listTable.read.bind fun _ =>
    sober_listTable.read.bind fun _ => Decoder.sober_pure _

theorem readSection_error {bytes : Bytes} {error : Error}
    (h : readSection.run bytes = .error error) :
    error.damage?.isSome ∨ ∃ raised, error = .index raised := by
  rcases Decoder.run_error h with rfl | hraises
  · exact .inl rfl
  rw [readSection_eq] at hraises
  rcases Decoder.raises_bind hraises with hmagic | ⟨found, hraises⟩
  · exact .inl (Decoder.sober_bytes _ _ hmagic)
  split at hraises
  · exact .inr ⟨_, hraises.symm⟩
  rcases Decoder.raises_bind hraises with hversion | ⟨version, hraises⟩
  · exact .inl (Decoder.sober_fixed _ _ hversion)
  split at hraises
  · exact .inr ⟨_, hraises.symm⟩
  · exact .inl (sober_readTables _ hraises)

-- ---------------------------------------------------------------------------
-- The pointer
-- ---------------------------------------------------------------------------

theorem seekPointer_inv {σ : Type} [SeekableInput σ] {s t : σ} {trailer : Nat}
    (h : seekPointer s = .ok trailer t) : SeekableInput.seek (-pointerBytes) s = .ok trailer t := by
  unfold seekPointer at h
  split at h
  · cases h
  · exact h

section
variable {s : InputStream} {content : Array UInt8} {p : Nat}

/-- Where the pointer of a content starts, and the section ends. -/
def trailerStart (content : Bytes) : Nat := content.length - pointerBytes

theorem trailerStart_le (content : Array UInt8) : trailerStart content.toList ≤ content.size := by
  rw [trailerStart, Array.length_toList]
  exact Nat.sub_le _ _

/-- Where the section should start. -/
def pointer (content : Bytes) : Nat := ofLittleEndian (content.drop (trailerStart content))

/-- The last bytes of the content point to a section of the index, which ends where they start. -/
structure StoredIn (index : StreamIndex) (content : Bytes) : Prop where
  long : pointerBytes ≤ content.length
  found : pointer content < trailerStart content
  isSection : IsSection ((content.take (trailerStart content)).drop (pointer content)) index

theorem seekPointer_ok (h : s.Placed content p) (hlong : pointerBytes ≤ content.toList.length) :
    ∃ t, seekPointer s = .ok (trailerStart content.toList) t ∧
      t.Over content (trailerStart content.toList) := by
  rw [trailerStart, Array.length_toList] at *
  obtain ⟨t, ht, hover⟩ := h.seek_end (show 0 < pointerBytes by decide) hlong
  refine ⟨t, ?_, hover⟩
  simp only [seekPointer, SeekableInput.seek, ht]

theorem seekPointer_short (h : s.Placed content p) (hshort : content.toList.length < pointerBytes) :
    ∃ t, seekPointer s = .error (.index .tooShort) t := by
  rw [Array.length_toList] at hshort
  obtain ⟨t, ht⟩ := h.seek_before hshort
  refine ⟨t, ?_⟩
  simp only [seekPointer, SeekableInput.seek, ht]

theorem readPointer_ok (h : s.Over content (trailerStart content.toList))
    (hlong : pointerBytes ≤ content.toList.length) :
    ∃ t : InputStream, (Decoder.fixed pointerBytes).exec s = .ok (pointer content.toList) t ∧
      ∃ q, t.Over content q := by
  have hlength : (content.toList.drop (trailerStart content.toList)).length = pointerBytes := by
    rw [List.length_drop, trailerStart]
    omega
  have hrun : (Decoder.fixed pointerBytes).run
      (content.toList.drop (trailerStart content.toList) ++ []) =
        .ok (pointer content.toList, []) := by
    rw [List.append_nil, Decoder.run_fixed_eq, if_pos (Nat.le_of_eq hlength.symm),
      List.take_of_length_le (Nat.le_of_eq hlength), List.drop_eq_nil_of_le (Nat.le_of_eq hlength)]
    rfl
  obtain ⟨t, ht, hover⟩ := h.exec_front (List.append_nil _).symm hrun
  exact ⟨t, ht, _, hover⟩

/-- Loads the section that starts at `start` and should end at `stop`, and goes on to `resume`. -/
def loadAt [SeekableInput σ] (start stop resume : Nat) : EStateM Error σ StreamIndex := do
  let _ ← SeekableInput.seek (signedOffset start)
  let index ← orFault readSection.exec .unreadable
  if ByteInput.pos (← get) ≠ stop then throw (.index .trailingBytes)
  let _ ← SeekableInput.seek (signedOffset resume)
  return index

theorem load_pointed (h : s.Placed content p) (hlong : pointerBytes ≤ content.toList.length) :
    ∃ t q, t.Over content q ∧ load s =
      if trailerStart content.toList ≤ pointer content.toList then .error (.index .notFound) t
      else loadAt (pointer content.toList) (trailerStart content.toList) p t := by
  obtain ⟨s₁, h₁, hover₁⟩ := seekPointer_ok h hlong
  obtain ⟨s₂, h₂, q, hover₂⟩ := readPointer_ok hover₁ hlong
  refine ⟨s₂, q, hover₂, ?_⟩
  have hpos : ByteInput.pos s = p := h.pos_eq
  have hpointer := orFault_ok h₂ .pointerUnreadable
  simp only [load, get_bind, hpos]
  simp only [bind, EStateM.bind, h₁, hpointer]
  split
  · rfl
  · rfl

-- ---------------------------------------------------------------------------
-- The section
-- ---------------------------------------------------------------------------

theorem drop_eq_append {l : List α} {i j : Nat} (hij : i ≤ j) (hj : j ≤ l.length) :
    l.drop i = (l.take j).drop i ++ l.drop j := by
  have hlength : i ≤ (l.take j).length := by rwa [List.length_take_of_le hj]
  rw [← List.drop_append_of_le_length hlength, List.take_append_drop]

variable {start stop resume : Nat}

theorem loadAt_ok (h : s.Over content p) (hstart : start ≤ stop) (hstop : stop ≤ content.size)
    (hresume : resume * 2 < sizeLimit) {index : StreamIndex}
    (hsection : IsSection ((content.toList.take stop).drop start) index) :
    ∃ t, loadAt start stop resume s = .ok index t ∧ t.Placed content resume := by
  obtain ⟨s₁, h₁, hover₁⟩ := h.seek_ok (Nat.le_trans hstart hstop)
  have hsplit := drop_eq_append (l := content.toList) hstart (by rwa [Array.length_toList])
  obtain ⟨s₂, h₂, hover₂⟩ := hover₁.exec_front hsplit (hsection.run_readSection _)
  obtain ⟨s₃, h₃, hplaced⟩ := hover₂.placed.seek_ok hresume
  have hstand : ByteInput.pos s₂ = stop := by
    refine hover₂.pos_eq.trans ?_
    rw [List.length_drop, List.length_take, Array.length_toList]
    omega
  refine ⟨s₃, ?_, hplaced⟩
  refine bind_ok.mpr ⟨_, s₁, h₁, bind_ok.mpr ⟨_, s₂, orFault_ok h₂ .unreadable,
    bind_ok.mpr ⟨s₂, s₂, rfl, ?_⟩⟩⟩
  rw [if_neg (not_not_intro hstand)]
  exact bind_ok.mpr ⟨_, s₃, h₃, rfl⟩

theorem loadAt_refused (h : s.Over content p) (hstart : start ≤ stop) (hstop : stop ≤ content.size)
    (hnone : ∀ index, ¬ IsSection ((content.toList.take stop).drop start) index) :
    ∃ fault t, loadAt start stop resume s = .error (.index fault) t := by
  obtain ⟨s₁, h₁, hover₁⟩ := h.seek_ok (Nat.le_trans hstart hstop)
  cases hrun : readSection.run (content.toList.drop start) with
  | error error =>
    obtain ⟨s₂, h₂⟩ := exec_of_run_error hover₁.ahead hrun
    obtain ⟨fault, hfault⟩ := orFault_error h₂ (readSection_error hrun) .unreadable
    exact ⟨fault, s₂, bind_error.mpr (.inr ⟨_, s₁, h₁, bind_error.mpr (.inl hfault)⟩)⟩
  | ok found =>
    obtain ⟨index, rest⟩ := found
    obtain ⟨front, hfront, hsection⟩ := isSection_of_run hrun
    have hahead := hfront
    rw [hfront] at hrun
    obtain ⟨s₂, h₂, hover₂⟩ := hover₁.exec_front hahead hrun
    -- A section that ended where it should would be that of an index.
    have hstand : ByteInput.pos s₂ ≠ stop := by
      intro hstand
      have hlength : start + front.length = stop := hover₂.pos_eq.symm.trans hstand
      refine hnone index ?_
      rwa [← hlength, List.drop_take, Nat.add_sub_cancel_left, hfront, List.take_left]
    refine ⟨.trailingBytes, s₂, bind_error.mpr (.inr ⟨_, s₁, h₁, bind_error.mpr
      (.inr ⟨_, s₂, orFault_ok h₂ .unreadable, bind_error.mpr (.inr ⟨s₂, s₂, rfl, ?_⟩)⟩)⟩)⟩
    rw [if_pos hstand]
    rfl

-- ---------------------------------------------------------------------------
-- Loading
-- ---------------------------------------------------------------------------

theorem load_stored (h : s.Placed content p) {index : StreamIndex}
    (hindex : index.StoredIn content.toList) :
    ∃ t, load s = .ok index t ∧ t.Placed content p := by
  obtain ⟨t, q, hover, hload⟩ := load_pointed h hindex.long
  rw [if_neg (Nat.not_le.mpr hindex.found)] at hload
  rw [hload]
  exact loadAt_ok hover (Nat.le_of_lt hindex.found) (trailerStart_le content) h.low
    hindex.isSection

theorem load_refused (h : s.Placed content p)
    (hnone : ∀ index : StreamIndex, ¬ index.StoredIn content.toList) :
    ∃ fault t, load s = .error (.index fault) t := by
  by_cases hlong : pointerBytes ≤ content.toList.length
  · obtain ⟨t, q, hover, hload⟩ := load_pointed h hlong
    rw [hload]
    split
    · exact ⟨_, t, rfl⟩
    · next hfound =>
      have hfound := Nat.not_le.mp hfound
      exact loadAt_refused hover (Nat.le_of_lt hfound) (trailerStart_le content)
        fun index hsection => hnone index ⟨hlong, hfound, hsection⟩
  · obtain ⟨t, ht⟩ := seekPointer_short h (Nat.lt_of_not_le hlong)
    exact ⟨_, t, bind_error.mpr (.inr ⟨s, s, rfl, bind_error.mpr (.inl ht)⟩)⟩

section
variable {index : StreamIndex} {content payload : Bytes} (hsize : content.length < sizeLimit)
  (hcontent : content = payload ++ (index.writes payload.length).flatten)
include hcontent

theorem length_of_writes :
    content.length = payload.length + (index.bytes.length + pointerBytes) := by
  rw [hcontent, flatten_writes]
  simp only [List.length_append, length_littleEndian]

theorem trailerStart_of_writes : trailerStart content = (payload ++ index.bytes).length := by
  rw [trailerStart, length_of_writes hcontent, List.length_append]
  omega

include hsize

/-- The pointer behind a payload points to its end. -/
theorem pointer_of_writes : pointer content = payload.length := by
  have hlength := length_of_writes hcontent
  rw [pointer, trailerStart_of_writes hcontent, hcontent, flatten_writes, ← List.append_assoc,
    List.drop_left]
  exact ofLittleEndian_littleEndian _ _ (show _ < sizeLimit by omega)

/-- The section of an index behind a payload, as it is written there. -/
theorem Storable.storedIn (h : index.Storable) : index.StoredIn content := by
  have hlength := length_of_writes hcontent
  have hmagic : 0 < index.bytes.length := by
    simp only [bytes, List.length_append]
    exact Nat.lt_of_lt_of_le (by decide) (Nat.le_add_right magic.length _)
  refine ⟨by omega, ?_, ?_⟩
  · rw [pointer_of_writes hsize hcontent, trailerStart_of_writes hcontent, List.length_append]
    omega
  · rw [pointer_of_writes hsize hcontent, trailerStart_of_writes hcontent, hcontent,
      flatten_writes, ← List.append_assoc, List.take_left, List.drop_left]
    exact h.isSection (by omega)

end

/-- The section of an index whose places lie in the content. -/
theorem Regular.storedIn {index : StreamIndex} {payload : Bytes}
    (h : index.Regular content.size) (hshort : content.size * 2 < sizeLimit)
    (hcontent : content.toList = payload ++ (index.writes payload.length).flatten) :
    index.StoredIn content.toList := by
  have hsize : content.toList.length < sizeLimit := by
    rw [Array.length_toList]
    omega
  have hbytes : index.bytes.length < sizeLimit := by
    rw [hcontent, flatten_writes] at hsize
    simp only [List.length_append] at hsize
    omega
  exact (h.storable (by omega) hbytes).storedIn hsize hcontent

/-- Loading finds the index behind a payload, and leaves the input where it was. -/
theorem load_ok {index : StreamIndex} {payload : Bytes} (h : s.Over content p)
    (hindex : index.Regular content.size)
    (hcontent : content.toList = payload ++ (index.writes payload.length).flatten) :
    ∃ t, load s = .ok index t ∧ t.Over content p := by
  obtain ⟨t, ht, hplaced⟩ := load_stored h.placed (hindex.storedIn h.short hcontent)
  exact ⟨t, ht, hplaced.over h.le⟩

end

/-- Loading an index from anywhere succeeds exactly where the content has an index, and delivers
that index; the input is where it was. In every other case a fault of the index is reported. Every
index that is written behind a payload is there. -/
theorem load_exact {s : InputStream} {content : Array UInt8} {p : Nat}
    (h : s.Placed content p) :
    (∀ index, (∃ t, load s = .ok index t) ↔ StoredIn index content.toList) ∧
    (∀ index t, load s = .ok index t → t.Placed content p) ∧
    (∀ error t, load s = .error error t → ∃ fault, error = .index fault) ∧
    ∀ (index : StreamIndex) (payload : Bytes), index.Storable →
      content.toList = payload ++ (index.writes payload.length).flatten →
      ∃ t, load s = .ok index t := by
  have hshort := h.short
  have hexact : (∃ index t, StoredIn index content.toList ∧ load s = .ok index t ∧
        t.Placed content p) ∨
      ((∀ index : StreamIndex, ¬ index.StoredIn content.toList) ∧
        ∃ fault t, load s = .error (.index fault) t) := by
    by_cases hstored : ∃ index : StreamIndex, index.StoredIn content.toList
    · obtain ⟨index, hindex⟩ := hstored
      obtain ⟨t, ht, hplaced⟩ := load_stored h hindex
      exact .inl ⟨index, t, hindex, ht, hplaced⟩
    · exact .inr ⟨not_exists.mp hstored, load_refused h (not_exists.mp hstored)⟩
  have hstored : ∀ index : StreamIndex, index.StoredIn content.toList →
      ∃ t, load s = .ok index t := fun index hindex =>
    let ⟨t, ht, _⟩ := load_stored h hindex
    ⟨t, ht⟩
  refine ⟨fun index => ⟨?_, hstored index⟩, ?_, ?_, ?_⟩
  · rintro ⟨t, ht⟩
    rcases hexact with ⟨found, t', hindex, ht', -⟩ | ⟨-, fault, t', ht'⟩
    · cases ht.symm.trans ht'
      exact hindex
    · cases ht.symm.trans ht'
  · intro index t ht
    rcases hexact with ⟨found, t', -, ht', hplaced⟩ | ⟨-, fault, t', ht'⟩
    · cases ht.symm.trans ht'
      exact hplaced
    · cases ht.symm.trans ht'
  · intro error t ht
    rcases hexact with ⟨found, t', -, ht', -⟩ | ⟨-, fault, t', ht'⟩
    · cases ht.symm.trans ht'
    · cases ht.symm.trans ht'
      exact ⟨fault, rfl⟩
  · intro index payload hindex hcontent
    refine hstored index (hindex.storedIn ?_ hcontent)
    rw [Array.length_toList]
    omega

/-- An index behind two bytes, loaded by a stream that stands far behind the end. -/
theorem load_exact_behind_end :
    let index : StreamIndex :=
      { steps := [("label", 2), ("ticks", 300)], items := [("ticks", [301, 302])],
        blocks := [("ticks", [0])] }
    let content := ([8, 9] ++ (index.writes 2).flatten).toArray
    ∃ t, load (InputStream.open { content, pos := 1000 } 16 1000) = .ok index t ∧
      t.Placed content 1000 := by
  intro index content
  have hindex : index.Storable :=
    ⟨⟨by decide, trivial⟩, trivial, trivial, by decide, by decide, by decide⟩
  have hshort : content.size * 2 < sizeLimit := by decide +kernel
  have hseekable : Source.Seekable { content, pos := 1000 } := ⟨⟨rfl, by simp⟩, rfl, rfl⟩
  have hplaced := InputStream.placed_open hseekable hshort (by decide) 16
  obtain ⟨-, hback, -, hwritten⟩ := load_exact hplaced
  obtain ⟨t, ht⟩ := hwritten index [8, 9] hindex rfl
  exact ⟨t, ht, hback index t ht⟩

end StreamIndex

end TypedStream
