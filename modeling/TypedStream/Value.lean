import TypedStream.Grid

/-!
# Values

What steps carry, whatever their type. Integers of all kinds are `int`, floats are their bits,
boxes are what they hold, fixed arrays and vectors are lists, complex numbers are records of two
floats, and the cases of enums and unions are variants.
-/

namespace TypedStream

inductive Value where
  | bool (b : Bool)
  | int (v : Int)
  | float (bits : Nat)
  | string (text : String)
  | unit
  | absent
  | present (value : Value)
  | list (items : List Value)
  | map (entries : List (Value × Value))
  | grid (shape : List Nat) (items : List Value)
  | record (fields : List Value)
  | variant (index : Nat) (fields : List Value)
  deriving Inhabited, Repr

namespace Value

-- ---------------------------------------------------------------------------
-- Parts. A value that is not of the asked form has the form's least part.
-- ---------------------------------------------------------------------------

def toBool : Value → Bool
  | bool b => b
  | _ => false

def toInt : Value → Int
  | int v => v
  | _ => 0

def toBits : Value → Nat
  | float bits => bits
  | _ => 0

def toText : Value → String
  | string text => text
  | _ => ""

def ofOption : Option Value → Value
  | none => absent
  | some v => present v

def toOption : Value → Option Value
  | present v => some v
  | _ => none

def toItems : Value → List Value
  | list items => items
  | _ => []

def toEntries : Value → List (Value × Value)
  | map entries => entries
  | _ => []

def ofGrid (g : Grid Value) : Value := grid g.shape g.data

def toGrid : Value → Grid Value
  | grid shape items => ⟨shape, items⟩
  | _ => ⟨[], []⟩

def toFields : Value → List Value
  | record fields => fields
  | _ => []

def ofVariant (v : Nat × List Value) : Value := variant v.1 v.2

def toVariant : Value → Nat × List Value
  | variant index fields => (index, fields)
  | _ => (0, [])

-- ---------------------------------------------------------------------------
-- Order
-- ---------------------------------------------------------------------------

/-- The place of a form among the forms. -/
def rank : Value → Nat
  | bool _ => 0
  | int _ => 1
  | float _ => 2
  | string _ => 3
  | unit => 4
  | absent => 5
  | present _ => 6
  | list _ => 7
  | map _ => 8
  | grid .. => 9
  | record _ => 10
  | variant .. => 11

mutual
/-- False comes before true, integers by value, texts by their characters, an absent value before
a present one, and compound values lexicographically. -/
def compare : Value → Value → Ordering
  | bool a, bool b => Ord.compare a b
  | int a, int b => Ord.compare a b
  | float a, float b => Ord.compare a b
  | string a, string b => Ord.compare a b
  | present a, present b => a.compare b
  | list a, list b => compareList a b
  | map a, map b => compareEntries a b
  | grid s a, grid t b => (Ord.compare s t).then (compareList a b)
  | record a, record b => compareList a b
  | variant i a, variant j b => (Ord.compare i j).then (compareList a b)
  | a, b => Ord.compare a.rank b.rank
def compareList : List Value → List Value → Ordering
  | [], [] => .eq
  | [], _ :: _ => .lt
  | _ :: _, [] => .gt
  | a :: as, b :: bs => (a.compare b).then (compareList as bs)
def compareEntries : List (Value × Value) → List (Value × Value) → Ordering
  | [], [] => .eq
  | [], _ :: _ => .lt
  | _ :: _, [] => .gt
  | (k, a) :: as, (l, b) :: bs =>
    ((k.compare l).then (a.compare b)).then (compareEntries as bs)
end

instance : Ord Value := ⟨compare⟩

end Value

end TypedStream
