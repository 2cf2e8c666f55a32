import TypedStream.Assoc
import Mathlib.Data.List.Induction
import Mathlib.Data.List.Perm.Basic

/-!
# Lists of entries as maps

A map has one ascending list of entries. Entries in any order, one for each key, make the map
that lists them in ascending order (`ofList_of_perm`); of entries that share keys some are left out
(`ofList_subperm`), namely all but the last of each key (`find?_ofList`). Changing the entry of a
key changes what is found under that key only.
-/

namespace TypedStream.Assoc

open Std (OrientedOrd TransOrd LawfulEqOrd)

section
variable [Ord κ] [TransOrd κ]

theorem lt_trans {a b c : κ} (h : compare a b = .lt) (h' : compare b c = .lt) :
    compare a c = .lt := Std.TransCmp.lt_trans h h'

theorem pairwise_cons_cons {e e' : κ × α} {es : List (κ × α)} (h : compare e.1 e'.1 = .lt)
    (hes : (e' :: es).Pairwise fun a b => compare a.1 b.1 = .lt) :
    (e :: e' :: es).Pairwise fun a b => compare a.1 b.1 = .lt := by
  refine List.pairwise_cons.mpr ⟨?_, hes⟩
  intro f hf
  rcases List.mem_cons.mp hf with rfl | hf
  · exact h
  · exact lt_trans h ((List.pairwise_cons.mp hes).1 f hf)

theorem ascending_iff_pairwise {es : List (κ × α)} :
    Ascending es ↔ es.Pairwise fun a b => compare a.1 b.1 = .lt := by
  induction es with
  | nil => simp [Ascending]
  | cons a es ih =>
    cases es with
    | nil => simp [Ascending]
    | cons b es =>
      simp only [Ascending, ih]
      constructor
      · rintro ⟨hab, hes⟩
        exact pairwise_cons_cons hab hes
      · intro h
        obtain ⟨ha, hes⟩ := List.pairwise_cons.mp h
        exact ⟨ha b (by simp), hes⟩

-- ---------------------------------------------------------------------------
-- Entries in any order
-- ---------------------------------------------------------------------------

theorem gt_iff_lt {a b : κ} : compare a b = .gt ↔ compare b a = .lt :=
  Std.OrientedCmp.gt_iff_lt

omit [TransOrd κ] in
theorem insertNew_perm {key : κ} {value : α} {es : List (κ × α)}
    (h : ∀ e ∈ es, compare key e.1 ≠ .eq) : (insertNew key value es).Perm ((key, value) :: es) := by
  induction es with
  | nil => exact .refl _
  | cons e es ih =>
    have he := h e (by simp)
    simp only [insertNew]
    split
    · exact .refl _
    · next heq => exact absurd heq he
    · exact ((ih fun f hf => h f (List.mem_cons_of_mem _ hf)).cons e).trans (.swap ..)

omit [TransOrd κ] in
theorem insertNew_subperm (key : κ) (value : α) (es : List (κ × α)) :
    (insertNew key value es).Subperm ((key, value) :: es) := by
  induction es with
  | nil => exact .refl _
  | cons e es ih =>
    simp only [insertNew]
    split
    · exact .refl _
    · exact .cons_self
    · exact ((List.subperm_cons e).mpr ih).trans (List.Perm.swap ..).subperm

theorem pairwise_insertNew {key : κ} {value : α} {es : List (κ × α)}
    (hes : es.Pairwise fun a b => compare a.1 b.1 = .lt) :
    (insertNew key value es).Pairwise fun a b => compare a.1 b.1 = .lt := by
  induction es with
  | nil => simp [insertNew]
  | cons e es ih =>
    obtain ⟨hhead, htail⟩ := List.pairwise_cons.mp hes
    simp only [insertNew]
    split
    · next hlt => exact pairwise_cons_cons hlt hes
    · exact hes
    · next hgt =>
      refine List.pairwise_cons.mpr ⟨?_, ih htail⟩
      intro f hf
      rcases List.mem_cons.mp ((insertNew_subperm key value es).subset hf) with rfl | hf
      · exact gt_iff_lt.mp hgt
      · exact hhead f hf

omit [TransOrd κ] in
/-- No entry of a map is made up, and none is there twice. -/
theorem ofList_subperm (es : List (κ × α)) : (ofList es).Subperm es := by
  induction es with
  | nil => exact .refl _
  | cons e es ih => exact (insertNew_subperm _ _ _).trans ((List.subperm_cons e).mpr ih)

theorem ascending_ofList (es : List (κ × α)) : Ascending (ofList es) := by
  rw [ascending_iff_pairwise]
  induction es with
  | nil => exact .nil
  | cons e es ih => exact pairwise_insertNew ih

omit [TransOrd κ] in
theorem ofList_perm {es : List (κ × α)} (h : es.Pairwise fun a b => compare a.1 b.1 ≠ .eq) :
    (ofList es).Perm es := by
  induction es with
  | nil => exact .refl _
  | cons e es ih =>
    obtain ⟨hhead, htail⟩ := List.pairwise_cons.mp h
    have hperm := ih htail
    have hnew : ∀ f ∈ ofList es, compare e.1 f.1 ≠ .eq := fun f hf =>
      hhead f (hperm.mem_iff.mp hf)
    exact (insertNew_perm hnew).trans (hperm.cons e)

theorem eq_of_perm {es fs : List (κ × α)} (hes : Ascending es) (hfs : Ascending fs)
    (hp : es.Perm fs) : es = fs := by
  refine hp.eq_of_pairwise ?_ (ascending_iff_pairwise.mp hes) (ascending_iff_pairwise.mp hfs)
  intro a b _ _ hab hba
  rw [gt_iff_lt.mpr hab] at hba
  cases hba

/-- A map is read back from its entries in whatever order they are listed. -/
theorem ofList_of_perm {es listing : List (κ × α)} (hes : Ascending es)
    (hp : listing.Perm es) : ofList listing = es := by
  have hne : es.Pairwise fun a b => compare a.1 b.1 ≠ .eq :=
    (ascending_iff_pairwise.mp hes).imp fun h => by rw [h]; simp
  have hlisting : listing.Pairwise fun a b => compare a.1 b.1 ≠ .eq :=
    (hp.pairwise_iff fun {a b} h h' => h (Std.OrientedCmp.eq_comm.mp h')).mpr hne
  exact eq_of_perm (ascending_ofList listing) hes ((ofList_perm hlisting).trans hp)

-- ---------------------------------------------------------------------------
-- Changing an entry
-- ---------------------------------------------------------------------------

omit [TransOrd κ] in
theorem mem_of_find? [LawfulEqOrd κ] {key : κ} {value : α} {es : List (κ × α)}
    (h : find? key es = some value) : (key, value) ∈ es := by
  induction es with
  | nil => cases h
  | cons e es ih =>
    cases hk : compare key e.1 with
    | lt => simp [find?, hk] at h
    | eq =>
      have hkey : key = e.1 := Std.LawfulEqCmp.eq_of_compare hk
      have hvalue : e.2 = value := by simpa [find?, hk] using h
      rw [hkey, ← hvalue]
      exact List.mem_cons_self
    | gt => exact List.mem_cons_of_mem _ (ih (by simpa [find?, hk] using h))

theorem find?_of_mem {es : List (κ × α)} (hes : Ascending es) {e : κ × α} (h : e ∈ es) :
    find? e.1 es = some e.2 := by
  rw [ascending_iff_pairwise] at hes
  induction es with
  | nil => cases h
  | cons e' es ih =>
    obtain ⟨hhead, htail⟩ := List.pairwise_cons.mp hes
    rcases List.mem_cons.mp h with rfl | h
    · simp only [find?, Std.ReflCmp.compare_self]
    · simp only [find?, gt_iff_lt.mpr (hhead e h)]
      exact ih htail h

theorem nodup_of_ascending {es : List (κ × α)} (h : Ascending es) : es.Nodup :=
  (ascending_iff_pairwise.mp h).imp fun {a b} hlt heq => by
    subst heq
    have hself : compare a.1 a.1 = .eq := Std.ReflCmp.compare_self
    cases hself.symm.trans hlt

/-- A map is determined by what is found in it. -/
theorem eq_of_find? [LawfulEqOrd κ] {es fs : List (κ × α)} (hes : Ascending es)
    (hfs : Ascending fs) (h : ∀ key, find? key es = find? key fs) : es = fs := by
  refine eq_of_perm hes hfs ((List.perm_ext_iff_of_nodup (nodup_of_ascending hes)
    (nodup_of_ascending hfs)).mpr fun e => ⟨fun he => ?_, fun he => ?_⟩)
  · exact mem_of_find? ((h e.1).symm.trans (find?_of_mem hes he))
  · exact mem_of_find? ((h e.1).trans (find?_of_mem hfs he))

theorem find?_alter_self (key : κ) (f : Option α → α) (es : List (κ × α)) :
    find? key (alter key f es) = some (f (find? key es)) := by
  induction es with
  | nil => simp [alter, find?]
  | cons e es ih =>
    cases h : compare key e.1 with
    | lt => simp [alter, find?, h]
    | eq => simp [alter, find?, h]
    | gt => simpa [alter, find?, h] using ih

variable [LawfulEqOrd κ]

theorem find?_alter_ne {key other : κ} (hne : other ≠ key) (f : Option α → α)
    (es : List (κ × α)) : find? other (alter key f es) = find? other es := by
  have hcmp : compare other key ≠ .eq := fun h => hne (Std.LawfulEqCmp.eq_of_compare h)
  induction es with
  | nil => cases h : compare other key <;> simp_all [alter, find?]
  | cons e es ih =>
    cases hk : compare key e.1 with
    | lt =>
      cases ho : compare other key with
      | lt => simp [alter, find?, hk, ho, lt_trans ho hk]
      | eq => exact absurd ho hcmp
      | gt => simp [alter, find?, hk, ho]
    | eq =>
      have hkey : key = e.1 := Std.LawfulEqCmp.eq_of_compare hk
      rw [hkey] at hcmp
      cases ho : compare other e.1 with
      | lt => simp [alter, find?, hk, ho]
      | eq => exact absurd ho hcmp
      | gt => simp [alter, find?, hk, ho]
    | gt => cases ho : compare other e.1 <;> simp [alter, find?, hk, ho, ih]

omit [TransOrd κ] in
theorem mem_alter {key : κ} {f : Option α → α} {es : List (κ × α)} {e : κ × α}
    (h : e ∈ alter key f es) : e = (key, f (find? key es)) ∨ e ∈ es := by
  induction es with
  | nil => exact .inl (List.mem_singleton.mp h)
  | cons e' es ih =>
    cases hk : compare key e'.1 with
    | lt =>
      simp only [alter, hk] at h
      simp only [find?, hk]
      exact List.mem_cons.mp h
    | eq =>
      simp only [alter, hk] at h
      have hkey : key = e'.1 := Std.LawfulEqCmp.eq_of_compare hk
      simp only [find?, hk]
      rw [hkey]
      exact (List.mem_cons.mp h).imp_right (List.mem_cons_of_mem _)
    | gt =>
      simp only [alter, hk] at h
      simp only [find?, hk]
      rcases List.mem_cons.mp h with rfl | h
      · exact .inr List.mem_cons_self
      · exact (ih h).imp_right (List.mem_cons_of_mem _)

theorem ascending_alter {es : List (κ × α)} (h : Ascending es) (key : κ) (f : Option α → α) :
    Ascending (alter key f es) := by
  rw [ascending_iff_pairwise] at h ⊢
  induction es with
  | nil => simp [alter]
  | cons e es ih =>
    obtain ⟨hhead, htail⟩ := List.pairwise_cons.mp h
    cases hk : compare key e.1 with
    | lt =>
      simp only [alter, hk]
      exact pairwise_cons_cons hk h
    | eq =>
      simp only [alter, hk]
      exact List.pairwise_cons.mpr ⟨hhead, htail⟩
    | gt =>
      simp only [alter, hk]
      refine List.pairwise_cons.mpr ⟨?_, ih htail⟩
      intro e' he'
      rcases mem_alter he' with rfl | he'
      · exact gt_iff_lt.mp hk
      · exact hhead e' he'

-- ---------------------------------------------------------------------------
-- Entries that share keys
-- ---------------------------------------------------------------------------

/-- The value in the last of the entries with a key. -/
def lastOf? (key : κ) : List (κ × α) → Option α
  | [] => none
  | (k, v) :: rest => (lastOf? key rest).or (if compare key k = .eq then some v else none)

omit [TransOrd κ] [LawfulEqOrd κ] in
theorem lastOf?_append (key : κ) (es fs : List (κ × α)) :
    lastOf? key (es ++ fs) = (lastOf? key fs).or (lastOf? key es) := by
  induction es with
  | nil => exact Option.or_none.symm
  | cons e es ih => rw [List.cons_append, lastOf?, lastOf?, ih, Option.or_assoc]

omit [TransOrd κ] [LawfulEqOrd κ] in
theorem insertNew_eq_alter (key : κ) (value : α) (es : List (κ × α)) :
    insertNew key value es = alter key (·.getD value) es := by
  induction es with
  | nil => rfl
  | cons e es ih =>
    rw [insertNew, alter, ih]
    rfl

omit [TransOrd κ] in
theorem compare_ne_eq {a b : κ} (h : a ≠ b) : compare a b ≠ .eq :=
  fun hcmp => h (Std.LawfulEqCmp.eq_of_compare hcmp)

theorem find?_insertNew (key other : κ) (value : α) (es : List (κ × α)) :
    find? other (insertNew key value es) =
      (find? other es).or (if compare other key = .eq then some value else none) := by
  rw [insertNew_eq_alter]
  by_cases h : other = key
  · subst h
    rw [find?_alter_self, if_pos Std.ReflCmp.compare_self]
    cases find? other es <;> rfl
  · rw [find?_alter_ne h, if_neg (compare_ne_eq h), Option.or_none]

theorem find?_ofList (key : κ) (es : List (κ × α)) : find? key (ofList es) = lastOf? key es := by
  induction es with
  | nil => rfl
  | cons e es ih =>
    show find? key (insertNew e.1 e.2 (ofList es)) = _
    rw [find?_insertNew, ih]
    rfl

/-- Those who go through the entries from the front and put each in place of the one that there is
with its key get the same map. -/
theorem ofList_eq_foldl (es : List (κ × α)) :
    ofList es = es.foldl (fun found e => alter e.1 (fun _ => e.2) found) [] := by
  have hfold : Ascending (es.foldl (fun found e => alter e.1 (fun _ => e.2) found) []) ∧
      ∀ key, find? key (es.foldl (fun found e => alter e.1 (fun _ => e.2) found) []) =
        lastOf? key es := by
    induction es using List.reverseRecOn with
    | nil => exact ⟨trivial, fun _ => rfl⟩
    | append_singleton es e ih =>
      rw [List.foldl_append]
      refine ⟨ascending_alter ih.1 _ _, fun key => ?_⟩
      rw [lastOf?_append, ← ih.2]
      by_cases h : key = e.1
      · subst h
        refine (find?_alter_self _ _ _).trans ?_
        simp [lastOf?]
      · refine (find?_alter_ne h _ _).trans ?_
        simp [lastOf?, compare_ne_eq h]
  exact eq_of_find? (ascending_ofList es) hfold.1 fun key =>
    (find?_ofList key es).trans (hfold.2 key).symm

end

end TypedStream.Assoc
