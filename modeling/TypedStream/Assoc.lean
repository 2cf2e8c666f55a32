/-!
# Sorted associations

Maps are lists of key and value in strictly ascending order of the keys. Equal maps are equal
lists. A hash map is such a list too, but it hands out its entries in an order of its own.
-/

namespace TypedStream.Assoc

/-- An order in which hash maps hand out their entries, given those of a map in the order of their
keys. It comes from the hashing, and nothing is known of it but that every entry is there once. Here
it depends on the entries only, so equal maps of a type share an order. -/
structure HashOrder (κ α : Type) where
  arrange : List (κ × α) → List (κ × α)
  perm : ∀ es, (arrange es).Perm es

variable [Ord κ]

def Ascending : List (κ × α) → Prop
  | [] => True
  | [_] => True
  | a :: b :: rest => compare a.1 b.1 = .lt ∧ Ascending (b :: rest)

/-- Adds an entry unless its key is there. -/
def insertNew (key : κ) (value : α) : List (κ × α) → List (κ × α)
  | [] => [(key, value)]
  | (k, v) :: rest =>
    match compare key k with
    | .lt => (key, value) :: (k, v) :: rest
    | .eq => (k, v) :: rest
    | .gt => (k, v) :: insertNew key value rest

def find? (key : κ) : List (κ × α) → Option α
  | [] => none
  | (k, v) :: rest =>
    match compare key k with
    | .lt => none
    | .eq => some v
    | .gt => find? key rest

/-- Replaces the value under a key, or adds the entry, by what `f` makes of the value there. -/
def alter (key : κ) (f : Option α → α) : List (κ × α) → List (κ × α)
  | [] => [(key, f none)]
  | (k, v) :: rest =>
    match compare key k with
    | .lt => (key, f none) :: (k, v) :: rest
    | .eq => (k, f (some v)) :: rest
    | .gt => (k, v) :: alter key f rest

/-- The map of a list of entries in any order. Of entries with one key the last counts. -/
def ofList (entries : List (κ × α)) : List (κ × α) :=
  entries.foldr (fun e found => insertNew e.1 e.2 found) []

end TypedStream.Assoc
