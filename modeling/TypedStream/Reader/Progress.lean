import TypedStream.Reader
import TypedStream.Run

/-!
# Progress of stream reads

A read that delivers items leaves less to read: fewer bytes, or as many bytes and fewer items of
the open block. This orders readers so that every loop over the items of a stream ends, however
the input is damaged and however few bytes an item takes.
-/

namespace TypedStream

theorem Decoder.left_exec_varint [ByteInput σ] {s s' : σ} {n : Nat}
    (h : Decoder.varint.exec s = .ok n s') : ByteInput.left s' < ByteInput.left s := by
  have key : ∀ {decoder : Decoder Nat} {next : Bytes → Decoder Nat}, decoder = .need 1 next →
      decoder.exec s = .ok n s' → ByteInput.left s' < ByteInput.left s := by
    intro decoder next hd hx
    subst hd
    simp only [exec] at hx
    split at hx
    · next bytes t ht =>
      have := ByteInput.left_take ht
      have := left_exec hx
      omega
    · simp at hx
  exact key rfl h

theorem left_tryVarint [ByteInput σ] {s s' : σ} {count : Option Nat}
    (h : tryVarint s = .ok count s') :
    ByteInput.left s' ≤ ByteInput.left s ∧
      (count ≠ none → ByteInput.left s' < ByteInput.left s) := by
  obtain ⟨b, t, ht, h⟩ := bind_ok.mp h
  have hl := ByteInput.left_atEnd ht
  cases b
  · obtain ⟨n, u, hu, h⟩ := bind_ok.mp h
    obtain ⟨-, rfl⟩ := pure_ok.mp h
    have := Decoder.left_exec_varint hu
    exact ⟨by omega, fun _ => by omega⟩
  · obtain ⟨rfl, rfl⟩ := pure_ok.mp h
    exact ⟨hl, fun h => absurd rfl h⟩

namespace Reader

variable {σ : Type} [ByteInput σ]

/-- What a reader has left: bytes, then items of the open block. -/
def toRead (r : Reader σ) : Nat × Nat := (ByteInput.left r.input, r.remaining)

def Behind (r s : Reader σ) : Prop := Prod.Lex (· < ·) (· < ·) r.toRead s.toRead

theorem behind_iff {r s : Reader σ} :
    Behind r s ↔ ByteInput.left r.input < ByteInput.left s.input ∨
      ByteInput.left r.input = ByteInput.left s.input ∧ r.remaining < s.remaining := by
  simp [Behind, toRead, Prod.lex_def]

theorem left_onInput {decoder : Decoder α} {r r' : Reader σ} {value : α}
    (h : onInput decoder.exec r = .ok value r') :
    ByteInput.left r'.input ≤ ByteInput.left r.input ∧ r'.remaining = r.remaining := by
  unfold onInput at h
  split at h
  · next v input hv =>
    simp only [EStateM.Result.ok.injEq] at h
    obtain ⟨-, rfl⟩ := h
    exact ⟨Decoder.left_exec hv, rfl⟩
  · simp at h

omit [ByteInput σ] in
theorem authorize_ok {step : Nat} {kind : StepKind} {r r' : Reader σ}
    (h : authorize step kind r = .ok () r') : r' = r := by
  unfold authorize require at h
  split at h
  · simpa using h.symm
  · simp at h

omit [ByteInput σ] in
theorem beginStream_ok {step : Nat} {r r' : Reader σ} {turn : StreamRead}
    (h : beginStream step r = .ok turn r') :
    r'.input = r.input ∧ r'.remaining = r.remaining := by
  unfold beginStream at h
  split at h
  · simp only [EStateM.Result.ok.injEq] at h
    obtain ⟨-, rfl⟩ := h
    exact ⟨rfl, rfl⟩
  · simp at h

/-- Opening a block that is not empty takes up a byte. -/
theorem ensureBlock_ok {r r' : Reader σ} (h : ensureBlock r = .ok () r') :
    r.remaining ≠ 0 ∧ r' = r ∨
      r.remaining = 0 ∧ ByteInput.left r'.input ≤ ByteInput.left r.input ∧
        (r'.remaining ≠ 0 → ByteInput.left r'.input < ByteInput.left r.input) := by
  unfold ensureBlock at h
  split at h
  · next hz =>
    unfold nextBlock at h
    split at h
    · next count input hc =>
      simp only [EStateM.Result.ok.injEq, true_and] at h
      subst h
      have := left_tryVarint hc
      refine .inr ⟨hz, this.1, fun hr => this.2 ?_⟩
      rintro rfl
      exact hr rfl
    · simp at h
  · next hz =>
    simp only [EStateM.Result.ok.injEq, true_and] at h
    exact .inl ⟨hz, h.symm⟩

/-- An item read is an item less to read. -/
theorem behind_of_readItem {codec : Codec α} {decoder : StepDecoder α} {step : Nat}
    {r r' : Reader σ} {item : α} (h : readItem codec decoder step r = .ok (some item) r') :
    Behind r' r := by
  obtain ⟨⟨⟩, r₁, h₁, h⟩ := bind_ok.mp h
  cases authorize_ok h₁
  obtain ⟨turn, r₂, h₂, h⟩ := bind_ok.mp h
  obtain ⟨hi, hr⟩ := beginStream_ok h₂
  cases turn with
  | finished => simp [pure_ok] at h
  | proceed =>
    obtain ⟨⟨⟩, r₃, h₃, h⟩ := bind_ok.mp h
    have e₃ := ensureBlock_ok h₃
    unfold takeItem at h
    split at h
    · simp at h
    next hz =>
    split at h
    · next v r₄ h₄ =>
      simp only [EStateM.Result.ok.injEq] at h
      obtain ⟨-, rfl⟩ := h
      obtain ⟨hl, hm⟩ := left_onInput h₄
      rw [behind_iff, ← hi]
      simp only
      rcases e₃ with ⟨-, rfl⟩ | ⟨h0, hle, hlt⟩
      · omega
      · have := hlt hz
        omega
    · simp at h

theorem fillItems_progress {codec : Codec α} {decoder : StepDecoder α} {room : Nat}
    {found : List α} {r r' : Reader σ} {items : List α}
    (h : fillItems codec decoder room found r = (.ok () r', items)) :
    (room = 0 ∨ r.remaining = 0) ∧ items = found ∧ r' = r ∨ Behind r' r := by
  fun_induction fillItems codec decoder room found r with
  | case1 room found r hz =>
    cases h
    exact .inl ⟨hz, rfl, rfl⟩
  | case2 => simp at h
  | case3 => simp at h
  | case4 room found r hz now got r₁ h₁ r₂ h₂ ih =>
    right
    obtain ⟨hl, hm⟩ := left_onInput h₁
    have e₂ := ensureBlock_ok h₂
    have hn : now = min r.remaining room := rfl
    have step : Behind r₂ r := by
      rw [behind_iff]
      rcases e₂ with ⟨-, rfl⟩ | ⟨h0, hle, hlt⟩
      · simp only
        omega
      · simp only at h0 hle hlt
        by_cases hr : r₂.remaining = 0
        · omega
        · have := hlt hr
          omega
    rcases ih h with ⟨-, -, rfl⟩ | hb
    · exact step
    · rw [behind_iff] at hb step ⊢
      omega

theorem behind_of_readBatch {codec : Codec α} {decoder : StepDecoder α} {step max : Nat}
    {r r' : Reader σ} {items : List α}
    (h : readBatch codec decoder step max r = .ok (some items) r') : Behind r' r := by
  unfold readBatch at h
  split at h
  · next items r₀ h₀ =>
    simp only [EStateM.Result.ok.injEq] at h
    obtain ⟨-, rfl⟩ := h
    unfold readItems at h₀
    split at h₀
    · simp at h₀
    next hmax =>
    split at h₀
    · simp at h₀
    next r₁ h₁ =>
    have e₁ := authorize_ok h₁
    subst e₁
    split at h₀
    · simp at h₀
    · simp at h₀
    next r₂ h₂ =>
    obtain ⟨hi, hr⟩ := beginStream_ok h₂
    split at h₀
    · simp at h₀
    next r₃ h₃ =>
    have e₃ := ensureBlock_ok h₃
    split at h₀
    · simp at h₀
    next r₄ got h₄ =>
    have e₄ := fillItems_progress h₄
    simp only [endBatch] at h₀
    split at h₀
    · next hz =>
      simp only [Prod.mk.injEq, EStateM.Result.ok.injEq] at h₀
      obtain ⟨⟨hg, rfl⟩, rfl⟩ := h₀
      rw [behind_iff]
      simp only
      rcases e₄ with ⟨ha, hb, rfl⟩ | hb
      · subst hb
        simp at hg
      · rw [behind_iff] at hb
        rw [← hi]
        rcases e₃ with ⟨-, rfl⟩ | ⟨h0, hle, hlt⟩
        · omega
        · by_cases hq : r₃.remaining = 0
          · omega
          · have := hlt hq
            omega
    · next hz =>
      simp only [Prod.mk.injEq, EStateM.Result.ok.injEq, true_and] at h₀
      obtain ⟨rfl, -⟩ := h₀
      rw [behind_iff]
      rcases e₄ with ⟨ha, -, rfl⟩ | hb
      · omega
      · rw [behind_iff] at hb
        rw [← hi]
        rcases e₃ with ⟨-, rfl⟩ | ⟨h0, hle, hlt⟩
        · omega
        · by_cases hq : r₃.remaining = 0
          · omega
          · have := hlt hq
            omega
  · simp at h
  · simp at h

end Reader

end TypedStream
