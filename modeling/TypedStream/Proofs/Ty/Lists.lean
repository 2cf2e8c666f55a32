import TypedStream.Ty
import TypedStream.Proofs.Codec.Compound

/-!
# The values of a type

`type.Lists value written` says that `value` is a value of the type and `written` the form in
which it is put down. The two are the same but for hash maps: the map that is read back hands out
its entries in an order of its own, and the form has them in the order in which they happened to be
listed. Of an enum these are the cases that a cast to its integer type leaves apart from the cases
in front of them.

Lengths, indices and element counts are those of a machine of 64 bits, and so is the nesting of a
value of a type that refers to itself, since each level takes up memory.
-/

namespace TypedStream

/-- The runs that can be read back. A run of arrays is a run of their elements, which have to be
few enough to be counted. -/
def Ty.RunFits : Ty → Nat → Prop
  | .array item length, count =>
    count * length < sizeLimit ∧ item.RunFits (count * length)
  | _, _ => True

def GridLists (items : Value → Value → Prop) (fits : Nat → Prop) (shape : List Nat)
    (data forms : List Value) : Prop :=
  Grid.ofData shape data = .ok ⟨shape, data⟩ ∧ (∀ dim ∈ shape, dim < sizeLimit) ∧
    List.Forall₂ items data forms ∧ fits data.length

mutual
/-- The values of a type and their forms, given those of the type that `self` stands for. -/
def Ty.ListsIn (self : Value → Value → Prop) : Ty → Value → Value → Prop
  | .bool => fun v w => ∃ b, v = .bool b ∧ w = .bool b
  | .int kind => fun v w => ∃ n, kind.Holds n ∧ v = .int n ∧ w = .int n
  | .float precision => fun v w =>
    ∃ bits, bits < wordLimit precision.width ∧ v = .float bits ∧ w = .float bits
  | .complex precision => fun v w =>
    ∃ re im, re < wordLimit precision.width ∧ im < wordLimit precision.width ∧
      v = .record [.float re, .float im] ∧ w = .record [.float re, .float im]
  | .string => fun v w =>
    ∃ text, (utf8 text).length < sizeLimit ∧ v = .string text ∧ w = .string text
  | .unit => fun v w => v = .unit ∧ w = .unit
  | .option item => fun v w =>
    (v = .absent ∧ w = .absent) ∨
      ∃ v' w', item.ListsIn self v' w' ∧ v = .present v' ∧ w = .present w'
  | .wrapped item => item.ListsIn self
  | .list item => fun v w =>
    ∃ vs ws, List.Forall₂ (item.ListsIn self) vs ws ∧ vs.length < sizeLimit ∧
      item.RunFits vs.length ∧ v = .list vs ∧ w = .list ws
  | .array item length => fun v w =>
    ∃ vs ws, List.Forall₂ (item.ListsIn self) vs ws ∧ vs.length = length ∧ length < sizeLimit ∧
      item.RunFits length ∧ v = .list vs ∧ w = .list ws
  | .map key value => fun v w =>
    ∃ es fs, Assoc.Ascending es ∧ es.length < sizeLimit ∧
      List.Forall₂ (fun e f => key.ListsIn self e.1 f.1 ∧ value.ListsIn self e.2 f.2) es fs ∧
      v = .map es ∧ w = .map fs
  | .hashMap order key value => fun v w =>
    ∃ es listing fs, Assoc.Ascending es ∧ es.length < sizeLimit ∧ List.Perm listing es ∧
      List.Forall₂ (fun e f => key.ListsIn self e.1 f.1 ∧ value.ListsIn self e.2 f.2)
        listing fs ∧
      v = .map (order.arrange es) ∧ w = .map fs
  | .grid item rank => fun v w =>
    ∃ shape vs ws, GridLists (item.ListsIn self) item.RunFits shape vs ws ∧
      shape.length = rank ∧ v = .grid shape vs ∧ w = .grid shape ws
  | .rankedGrid item => fun v w =>
    ∃ shape vs ws, GridLists (item.ListsIn self) item.RunFits shape vs ws ∧
      shape.length < sizeLimit ∧ v = .grid shape vs ∧ w = .grid shape ws
  | .record _ _ fields => fun v w =>
    ∃ vs ws, fields.ListsIn self vs ws ∧ v = .record vs ∧ w = .record ws
  | .union _ alternatives => fun v w =>
    ∃ index vs ws, index < sizeLimit ∧ alternatives.ListsIn self index vs ws ∧
      v = .variant index vs ∧ w = .variant index ws
  | .enum _ kind cases => fun v w =>
    ∃ place n, (cases.map (·.2))[place]? = some n ∧
      (cases.map (·.2)).findIdx? (kind.wrap · == kind.wrap n) = some place ∧
      v = .variant place [] ∧ w = .variant place []
  | .fix body => fun v w =>
    (∀ count, body.RunFits count) ∧ Codec.Nests body.ListsIn sizeLimit v w
  | .self => self
def Fields.ListsIn (self : Value → Value → Prop) : Fields → List Value → List Value → Prop
  | .nil => fun vs ws => vs = [] ∧ ws = []
  | .cons _ type rest => Codec.ListsCons (type.ListsIn self) (rest.ListsIn self)
def Alternatives.ListsIn (self : Value → Value → Prop) :
    Alternatives → Nat → List Value → List Value → Prop
  | .nil => fun _ _ _ => False
  | .cons _ fields rest => fun index vs ws =>
    match index with
    | 0 => fields.ListsIn self vs ws
    | index + 1 => rest.ListsIn self index vs ws
end

/-- The values of a type in which every `self` is bound, and their forms. -/
def Ty.Lists (type : Ty) : Value → Value → Prop := type.ListsIn fun _ _ => False

-- ---------------------------------------------------------------------------
-- Runs
-- ---------------------------------------------------------------------------

theorem Ty.runFits_zero (type : Ty) : type.RunFits 0 := by
  cases type with
  | array item length =>
    rw [Ty.RunFits, Nat.zero_mul]
    exact ⟨by decide, Ty.runFits_zero item⟩
  | _ => trivial

theorem Ty.RunFits.mono {type : Ty} {m n : Nat} (h : type.RunFits n) (hle : m ≤ n) :
    type.RunFits m := by
  cases type with
  | array item length =>
    obtain ⟨hlimit, hfits⟩ := h
    have hmul := Nat.mul_le_mul_right length hle
    exact ⟨Nat.lt_of_le_of_lt hmul hlimit, Ty.RunFits.mono hfits hmul⟩
  | _ => trivial

theorem Ty.runFits_one {type : Ty} {self : Value → Value → Prop} {v w : Value}
    (h : type.ListsIn self v w) : type.RunFits 1 := by
  cases type with
  | array item length =>
    obtain ⟨vs, ws, -, -, hlen, hfits, -, -⟩ := h
    rw [Ty.RunFits, Nat.one_mul]
    exact ⟨hlen, hfits⟩
  | _ => trivial

end TypedStream
