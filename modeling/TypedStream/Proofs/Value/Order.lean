import TypedStream.Value

/-!
# The order of values

The comparison of values is a strict linear order: only equal values compare equal, turning the
comparison round turns its result round, and ascending is transitive. Maps with keys of any type
therefore have one ascending list of entries.
-/

namespace TypedStream.Value

open Std (OrientedOrd TransOrd LawfulEqOrd)

theorem compare_of_rank_ne {a b : Value} (h : a.rank ≠ b.rank) :
    a.compare b = Ord.compare a.rank b.rank := by
  cases a <;> cases b <;> first
    | exact absurd rfl h
    | rfl

-- ---------------------------------------------------------------------------
-- Equality
-- ---------------------------------------------------------------------------

mutual
theorem compare_self : (a : Value) → a.compare a = .eq
  | .bool b => by simp [compare]
  | .int v => by simp [compare]
  | .float bits => by simp [compare]
  | .string text => by simp [compare]
  | .unit => rfl
  | .absent => rfl
  | .present v => by simp only [compare, compare_self v]
  | .list items => by simp only [compare, compareList_self items]
  | .map entries => by simp only [compare, compareEntries_self entries]
  | .grid shape items => by simp [compare, compareList_self items]
  | .record fields => by simp only [compare, compareList_self fields]
  | .variant index fields => by simp [compare, compareList_self fields]

theorem compareList_self : (as : List Value) → compareList as as = .eq
  | [] => rfl
  | a :: as => by simp only [compareList, compare_self a, compareList_self as, Ordering.then_eq]

theorem compareEntries_self : (as : List (Value × Value)) → compareEntries as as = .eq
  | [] => rfl
  | (k, a) :: as => by
    simp only [compareEntries, compare_self k, compare_self a, compareEntries_self as,
      Ordering.then_eq]
end

theorem rank_eq_of_compare_eq {a b : Value} (h : a.compare b = .eq) : a.rank = b.rank := by
  by_cases hr : a.rank = b.rank
  · exact hr
  · rw [compare_of_rank_ne hr] at h
    exact LawfulEqOrd.eq_of_compare h

mutual
theorem eq_of_compare : (a b : Value) → a.compare b = .eq → a = b
  | a, b, h => by
    have hr := rank_eq_of_compare_eq h
    cases a <;> cases b <;> simp only [rank, reduceCtorEq, Nat.reduceEqDiff] at hr
    case bool a b => simpa [compare] using h
    case int a b => simpa [compare] using h
    case float a b => simpa [compare] using h
    case string a b => simpa [compare] using h
    case unit => rfl
    case absent => rfl
    case present a b => rw [eq_of_compare a b (by simpa only [compare] using h)]
    case list as bs => rw [eq_of_compareList as bs (by simpa only [compare] using h)]
    case map as bs => rw [eq_of_compareEntries as bs (by simpa only [compare] using h)]
    case grid s as t bs =>
      simp only [compare, Ordering.then_eq_eq] at h
      rw [LawfulEqOrd.eq_of_compare h.1, eq_of_compareList as bs h.2]
    case record as bs => rw [eq_of_compareList as bs (by simpa only [compare] using h)]
    case variant i as j bs =>
      simp only [compare, Ordering.then_eq_eq] at h
      rw [LawfulEqOrd.eq_of_compare h.1, eq_of_compareList as bs h.2]

theorem eq_of_compareList : (as bs : List Value) → compareList as bs = .eq → as = bs
  | [], [], _ => rfl
  | [], _ :: _, h => nomatch h
  | _ :: _, [], h => nomatch h
  | a :: as, b :: bs, h => by
    simp only [compareList, Ordering.then_eq_eq] at h
    rw [eq_of_compare a b h.1, eq_of_compareList as bs h.2]

theorem eq_of_compareEntries :
    (as bs : List (Value × Value)) → compareEntries as bs = .eq → as = bs
  | [], [], _ => rfl
  | [], _ :: _, h => nomatch h
  | _ :: _, [], h => nomatch h
  | (k, a) :: as, (l, b) :: bs, h => by
    simp only [compareEntries, Ordering.then_eq_eq] at h
    rw [eq_of_compare k l h.1.1, eq_of_compare a b h.1.2, eq_of_compareEntries as bs h.2]
end

-- ---------------------------------------------------------------------------
-- Direction
-- ---------------------------------------------------------------------------

mutual
theorem compare_swap : (a b : Value) → a.compare b = (b.compare a).swap
  | a, b => by
    by_cases hr : a.rank = b.rank
    · cases a <;> cases b <;> simp only [rank, reduceCtorEq, Nat.reduceEqDiff] at hr
      case bool a b => exact OrientedOrd.eq_swap
      case int a b => exact OrientedOrd.eq_swap
      case float a b => exact OrientedOrd.eq_swap
      case string a b => exact OrientedOrd.eq_swap
      case unit => rfl
      case absent => rfl
      case present a b => simpa only [compare] using compare_swap a b
      case list as bs => simpa only [compare] using compareList_swap as bs
      case map as bs => simpa only [compare] using compareEntries_swap as bs
      case grid s as t bs =>
        simp only [compare, Ordering.swap_then]
        rw [← OrientedOrd.eq_swap, ← compareList_swap as bs]
      case record as bs => simpa only [compare] using compareList_swap as bs
      case variant i as j bs =>
        simp only [compare, Ordering.swap_then]
        rw [← OrientedOrd.eq_swap, ← compareList_swap as bs]
    · rw [compare_of_rank_ne hr, compare_of_rank_ne (Ne.symm hr)]
      exact OrientedOrd.eq_swap

theorem compareList_swap : (as bs : List Value) → compareList as bs = (compareList bs as).swap
  | [], [] => rfl
  | [], _ :: _ => rfl
  | _ :: _, [] => rfl
  | a :: as, b :: bs => by
    simp only [compareList, Ordering.swap_then]
    rw [← compare_swap a b, ← compareList_swap as bs]

theorem compareEntries_swap :
    (as bs : List (Value × Value)) → compareEntries as bs = (compareEntries bs as).swap
  | [], [] => rfl
  | [], _ :: _ => rfl
  | _ :: _, [] => rfl
  | (k, a) :: as, (l, b) :: bs => by
    simp only [compareEntries, Ordering.swap_then]
    rw [← compare_swap k l, ← compare_swap a b, ← compareEntries_swap as bs]
end

theorem rank_le_of_compare_lt {a b : Value} (h : a.compare b = .lt) : a.rank ≤ b.rank := by
  by_cases hr : a.rank = b.rank
  · exact Nat.le_of_eq hr
  · rw [compare_of_rank_ne hr, Nat.compare_eq_lt] at h
    exact Nat.le_of_lt h

/-- Two comparisons one after the other ascend together. -/
theorem then_lt_trans {x y z x' y' z' : Ordering} (h : x.then x' = .lt) (h' : y.then y' = .lt)
    (hlt : x = .lt → y = .lt → z = .lt) (hleft : x = .eq → z = y) (hright : y = .eq → z = x)
    (hlast : x = .eq → y = .eq → x' = .lt → y' = .lt → z' = .lt) : z.then z' = .lt := by
  rw [Ordering.then_eq_lt] at h h' ⊢
  rcases h with h | ⟨h, hx⟩ <;> rcases h' with h' | ⟨h', hy⟩
  · exact .inl (hlt h h')
  · exact .inl (by rw [hright h', h])
  · exact .inl (by rw [hleft h, h'])
  · exact .inr ⟨by rw [hleft h, h'], hlast h h' hx hy⟩

theorem compare_left {a b : Value} (c : Value) (h : a.compare b = .eq) :
    a.compare c = b.compare c := by
  rw [eq_of_compare a b h]

theorem compare_right {b c : Value} (a : Value) (h : b.compare c = .eq) :
    a.compare c = a.compare b := by
  rw [eq_of_compare b c h]

theorem ord_lt_trans [Ord α] [TransOrd α] {a b c : α} (h : Ord.compare a b = .lt)
    (h' : Ord.compare b c = .lt) : Ord.compare a c = .lt := Std.TransCmp.lt_trans h h'

mutual
theorem compare_trans : (a b c : Value) → a.compare b = .lt → b.compare c = .lt →
    a.compare c = .lt
  | a, b, c, h, h' => by
    have hab := rank_le_of_compare_lt h
    have hbc := rank_le_of_compare_lt h'
    by_cases hr : a.rank = c.rank
    · have hb : a.rank = b.rank := by omega
      cases a <;> cases c <;> simp only [rank, reduceCtorEq, Nat.reduceEqDiff] at hr <;>
        cases b <;> simp only [rank, reduceCtorEq, Nat.reduceEqDiff] at hb
      case bool a c b => exact ord_lt_trans (b := b) h h'
      case int a c b => exact ord_lt_trans (b := b) h h'
      case float a c b => exact ord_lt_trans (b := b) h h'
      case string a c b => exact ord_lt_trans (b := b) h h'
      case unit => exact h
      case absent => exact h
      case present a c b =>
        simp only [compare] at h h' ⊢
        exact compare_trans a b c h h'
      case list as cs bs =>
        simp only [compare] at h h' ⊢
        exact compareList_trans as bs cs h h'
      case map as cs bs =>
        simp only [compare] at h h' ⊢
        exact compareEntries_trans as bs cs h h'
      case grid s as u cs t bs =>
        simp only [compare] at h h' ⊢
        exact then_lt_trans h h' ord_lt_trans
          (fun e => by rw [LawfulEqOrd.eq_of_compare e])
          (fun e => by rw [LawfulEqOrd.eq_of_compare e])
          (fun _ _ => compareList_trans as bs cs)
      case record as cs bs =>
        simp only [compare] at h h' ⊢
        exact compareList_trans as bs cs h h'
      case variant i as k cs j bs =>
        simp only [compare] at h h' ⊢
        exact then_lt_trans h h' ord_lt_trans
          (fun e => by rw [LawfulEqOrd.eq_of_compare e])
          (fun e => by rw [LawfulEqOrd.eq_of_compare e])
          (fun _ _ => compareList_trans as bs cs)
    · rw [compare_of_rank_ne hr, Nat.compare_eq_lt]
      omega

theorem compareList_trans : (as bs cs : List Value) → compareList as bs = .lt →
    compareList bs cs = .lt → compareList as cs = .lt
  | [], [], _, h, _ => nomatch h
  | [], _ :: _, [], _, h => nomatch h
  | [], _ :: _, _ :: _, _, _ => rfl
  | _ :: _, [], _, h, _ => nomatch h
  | _ :: _, _ :: _, [], _, h => nomatch h
  | a :: as, b :: bs, c :: cs, h, h' =>
    then_lt_trans h h' (compare_trans a b c) (compare_left c) (compare_right a)
      (fun _ _ => compareList_trans as bs cs)

theorem compareEntries_trans : (as bs cs : List (Value × Value)) → compareEntries as bs = .lt →
    compareEntries bs cs = .lt → compareEntries as cs = .lt
  | [], [], _, h, _ => nomatch h
  | [], _ :: _, [], _, h => nomatch h
  | [], _ :: _, _ :: _, _, _ => rfl
  | _ :: _, [], _, h, _ => nomatch h
  | _ :: _, _ :: _, [], _, h => nomatch h
  | (k, a) :: as, (l, b) :: bs, (m, c) :: cs, h, h' =>
    then_lt_trans h h'
      (fun e e' => then_lt_trans e e' (compare_trans k l m) (compare_left m) (compare_right k)
        (fun _ _ => compare_trans a b c))
      (fun e => by
        rw [Ordering.then_eq_eq] at e
        rw [compare_left m e.1, compare_left c e.2])
      (fun e => by
        rw [Ordering.then_eq_eq] at e
        rw [compare_right k e.1, compare_right a e.2])
      (fun _ _ => compareEntries_trans as bs cs)
end

instance : LawfulEqOrd Value where
  compare_self := compare_self _
  eq_of_compare := eq_of_compare _ _

instance : OrientedOrd Value where
  eq_swap := compare_swap _ _

instance : TransOrd Value where
  isLE_trans := by
    intro a b c h h'
    show (a.compare c).isLE = true
    rcases Ordering.isLE_iff_eq_lt_or_eq_eq.mp h with h | h
    · rcases Ordering.isLE_iff_eq_lt_or_eq_eq.mp h' with h' | h'
      · exact Ordering.isLE_iff_eq_lt_or_eq_eq.mpr (.inl (compare_trans a b c h h'))
      · rw [← eq_of_compare b c h']
        exact Ordering.isLE_iff_eq_lt_or_eq_eq.mpr (.inl h)
    · rw [eq_of_compare a b h]
      exact h'

end TypedStream.Value
