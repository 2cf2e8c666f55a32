import TypedStream.Proofs.Ty.Lists

/-!
# The forms of a value

A value is always a form of itself (`Ty.lists_self`): a map can be written in the order in which it
hands out its entries. Without hash maps in its type it has no other form (`Ty.lists_eq`).
-/

namespace TypedStream

mutual
/-- There is no hash map in the type, so its values can be put down in one way only. -/
def Ty.HashFree : Ty → Prop
  | .hashMap _ _ _ => False
  | .map key value => key.HashFree ∧ value.HashFree
  | .option item | .wrapped item | .list item | .array item _ | .grid item _ | .rankedGrid item
  | .fix item => item.HashFree
  | .record _ _ fields => fields.HashFree
  | .union _ alternatives => alternatives.HashFree
  | _ => True
def Fields.HashFree : Fields → Prop
  | .nil => True
  | .cons _ type rest => type.HashFree ∧ rest.HashFree
def Alternatives.HashFree : Alternatives → Prop
  | .nil => True
  | .cons _ fields rest => fields.HashFree ∧ rest.HashFree
end

/-- What has a form is a form of itself, and if `sole` holds it has no other. -/
def Reflects (sole : Prop) (lists : α → α → Prop) : Prop :=
  ∀ v w, lists v w → lists v v ∧ (sole → v = w)

section
variable {sole : Prop}

theorem Reflects.forall₂ {lists : α → α → Prop} (h : Reflects sole lists) :
    Reflects sole (List.Forall₂ lists) := by
  intro vs ws hall
  induction hall with
  | nil => exact ⟨.nil, fun _ => rfl⟩
  | cons hv _ ih =>
    obtain ⟨hself, heq⟩ := h _ _ hv
    exact ⟨.cons hself ih.1, fun hsole => by rw [heq hsole, ih.2 hsole]⟩

theorem Reflects.entry {keys : κ → κ → Prop} {values : α → α → Prop} (hk : Reflects sole keys)
    (hv : Reflects sole values) :
    Reflects sole fun e f : κ × α => keys e.1 f.1 ∧ values e.2 f.2 := by
  intro e f h
  obtain ⟨hkey, hkey'⟩ := hk _ _ h.1
  obtain ⟨hvalue, hvalue'⟩ := hv _ _ h.2
  exact ⟨⟨hkey, hvalue⟩, fun hsole => Prod.ext (hkey' hsole) (hvalue' hsole)⟩

theorem Reflects.gridLists {items : Value → Value → Prop} (h : Reflects sole items)
    (fits : Nat → Prop) (shape : List Nat) : Reflects sole (GridLists items fits shape) := by
  rintro vs ws ⟨hgrid, hdims, hall, hfits⟩
  obtain ⟨hself, heq⟩ := h.forall₂ _ _ hall
  exact ⟨⟨hgrid, hdims, hself, hfits⟩, heq⟩

theorem Reflects.nests (body : (Value → Value → Prop) → Value → Value → Prop)
    (h : ∀ {lists}, Reflects sole lists → Reflects sole (body lists)) (depth : Nat) :
    Reflects sole (Codec.Nests body depth) := by
  induction depth with
  | zero => exact fun _ _ hv => hv.elim
  | succ depth ih => exact h ih

mutual
theorem Ty.reflects_listsIn {lists : Value → Value → Prop} (hself : Reflects sole lists) :
    (type : Ty) → (sole → type.HashFree) → Reflects sole (type.ListsIn lists)
  | .bool, _, _, _, ⟨b, rfl, rfl⟩ => ⟨⟨b, rfl, rfl⟩, fun _ => rfl⟩
  | .int _, _, _, _, ⟨n, hn, rfl, rfl⟩ => ⟨⟨n, hn, rfl, rfl⟩, fun _ => rfl⟩
  | .float _, _, _, _, ⟨bits, hbits, rfl, rfl⟩ => ⟨⟨bits, hbits, rfl, rfl⟩, fun _ => rfl⟩
  | .complex _, _, _, _, ⟨re, im, hre, him, rfl, rfl⟩ =>
    ⟨⟨re, im, hre, him, rfl, rfl⟩, fun _ => rfl⟩
  | .string, _, _, _, ⟨text, ht, rfl, rfl⟩ => ⟨⟨text, ht, rfl, rfl⟩, fun _ => rfl⟩
  | .unit, _, _, _, ⟨rfl, rfl⟩ => ⟨⟨rfl, rfl⟩, fun _ => rfl⟩
  | .option item, hfree, _, _, h => by
    obtain ⟨rfl, rfl⟩ | ⟨v, w, hvw, rfl, rfl⟩ := h
    · exact ⟨.inl ⟨rfl, rfl⟩, fun _ => rfl⟩
    · obtain ⟨hv, heq⟩ := Ty.reflects_listsIn hself item hfree _ _ hvw
      exact ⟨.inr ⟨v, v, hv, rfl, rfl⟩, fun hsole => by rw [heq hsole]⟩
  | .wrapped item, hfree, _, _, h => Ty.reflects_listsIn hself item hfree _ _ h
  | .list item, hfree, _, _, ⟨vs, ws, hall, hlen, hfits, rfl, rfl⟩ => by
    obtain ⟨hvs, heq⟩ := (Ty.reflects_listsIn hself item hfree).forall₂ _ _ hall
    exact ⟨⟨vs, vs, hvs, hlen, hfits, rfl, rfl⟩, fun hsole => by rw [heq hsole]⟩
  | .array item _, hfree, _, _, ⟨vs, ws, hall, hlen, hlimit, hfits, rfl, rfl⟩ => by
    obtain ⟨hvs, heq⟩ := (Ty.reflects_listsIn hself item hfree).forall₂ _ _ hall
    exact ⟨⟨vs, vs, hvs, hlen, hlimit, hfits, rfl, rfl⟩, fun hsole => by rw [heq hsole]⟩
  | .map key value, hfree, _, _, ⟨es, fs, hasc, hlen, hall, rfl, rfl⟩ => by
    have hentry := (Ty.reflects_listsIn hself key fun hsole => (hfree hsole).1).entry
      (Ty.reflects_listsIn hself value fun hsole => (hfree hsole).2)
    obtain ⟨hes, heq⟩ := hentry.forall₂ _ _ hall
    exact ⟨⟨es, es, hasc, hlen, hes, rfl, rfl⟩, fun hsole => by rw [heq hsole]⟩
  -- The map is a form of itself in the order in which it hands out its entries.
  | .hashMap order key value, hfree, _, _, ⟨es, listing, fs, hasc, hlen, hperm, hall, rfl, rfl⟩ => by
    have hentry := (Ty.reflects_listsIn hself key fun hsole => (hfree hsole).elim).entry
      (Ty.reflects_listsIn hself value fun hsole => (hfree hsole).elim)
    have hlisted := List.forall₂_same.mp (hentry.forall₂ _ _ hall).1
    refine ⟨⟨es, _, _, hasc, hlen, order.perm es, List.forall₂_same.mpr fun e he => ?_, rfl, rfl⟩,
      fun hsole => (hfree hsole).elim⟩
    exact hlisted e (hperm.mem_iff.mpr ((order.perm es).mem_iff.mp he))
  | .grid item _, hfree, _, _, ⟨shape, vs, ws, hgrid, hrank, rfl, rfl⟩ => by
    obtain ⟨hvs, heq⟩ := (Ty.reflects_listsIn hself item hfree).gridLists _ _ _ _ hgrid
    exact ⟨⟨shape, vs, vs, hvs, hrank, rfl, rfl⟩, fun hsole => by rw [heq hsole]⟩
  | .rankedGrid item, hfree, _, _, ⟨shape, vs, ws, hgrid, hrank, rfl, rfl⟩ => by
    obtain ⟨hvs, heq⟩ := (Ty.reflects_listsIn hself item hfree).gridLists _ _ _ _ hgrid
    exact ⟨⟨shape, vs, vs, hvs, hrank, rfl, rfl⟩, fun hsole => by rw [heq hsole]⟩
  | .record _ _ fields, hfree, _, _, ⟨vs, ws, hall, rfl, rfl⟩ => by
    obtain ⟨hvs, heq⟩ := Fields.reflects_listsIn hself fields hfree _ _ hall
    exact ⟨⟨vs, vs, hvs, rfl, rfl⟩, fun hsole => by rw [heq hsole]⟩
  | .union _ alternatives, hfree, _, _, ⟨index, vs, ws, hsize, hall, rfl, rfl⟩ => by
    obtain ⟨hvs, heq⟩ := Alternatives.reflects_listsIn hself alternatives hfree index _ _ hall
    exact ⟨⟨index, vs, vs, hsize, hvs, rfl, rfl⟩, fun hsole => by rw [heq hsole]⟩
  | .enum _ _ _, _, _, _, ⟨place, n, hplace, hfirst, rfl, rfl⟩ =>
    ⟨⟨place, n, hplace, hfirst, rfl, rfl⟩, fun _ => rfl⟩
  | .fix body, hfree, _, _, ⟨hfits, hnests⟩ => by
    have hbody := Reflects.nests body.ListsIn
      (fun hinner => Ty.reflects_listsIn hinner body hfree) sizeLimit
    exact ⟨⟨hfits, (hbody _ _ hnests).1⟩, (hbody _ _ hnests).2⟩
  | .self, _, _, _, h => hself _ _ h
theorem Fields.reflects_listsIn {lists : Value → Value → Prop} (hself : Reflects sole lists) :
    (fields : Fields) → (sole → fields.HashFree) → Reflects sole (fields.ListsIn lists)
  | .nil, _, _, _, ⟨rfl, rfl⟩ => ⟨⟨rfl, rfl⟩, fun _ => rfl⟩
  | .cons _ type rest, hfree, _ :: _, _ :: _, ⟨hv, hvs⟩ => by
    obtain ⟨hv, heq⟩ := Ty.reflects_listsIn hself type (fun hsole => (hfree hsole).1) _ _ hv
    obtain ⟨hvs, heq'⟩ := Fields.reflects_listsIn hself rest (fun hsole => (hfree hsole).2) _ _ hvs
    exact ⟨⟨hv, hvs⟩, fun hsole => by rw [heq hsole, heq' hsole]⟩
theorem Alternatives.reflects_listsIn {lists : Value → Value → Prop}
    (hself : Reflects sole lists) : (alternatives : Alternatives) →
    (sole → alternatives.HashFree) → ∀ index, Reflects sole (alternatives.ListsIn lists index)
  | .cons _ fields _, hfree, 0, _, _, h =>
    Fields.reflects_listsIn hself fields (fun hsole => (hfree hsole).1) _ _ h
  | .cons _ _ rest, hfree, index + 1, _, _, h =>
    Alternatives.reflects_listsIn hself rest (fun hsole => (hfree hsole).2) index _ _ h
end

end

variable {type : Ty} {v w : Value}

/-- Nothing has a form outside of a recursive type. -/
theorem Reflects.nothing (sole : Prop) : Reflects sole fun _ _ : Value => False :=
  fun _ _ hv => hv.elim

end TypedStream
