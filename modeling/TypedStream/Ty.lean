import TypedStream.Value

/-!
# Types

Descriptions of the types that steps carry, and the codec that each of them means.

A record, union or enum brings its declaration along. A type that refers to itself is a `fix`;
`self` inside its body stands for the nearest one.
-/

namespace TypedStream

inductive Precision where
  | single
  | double
  deriving DecidableEq, Repr

def Precision.width : Precision → Nat
  | .single => 4
  | .double => 8

mutual
inductive Ty where
  | bool
  | int (kind : IntKind)
  | float (precision : Precision)
  | complex (precision : Precision)
  | string
  | unit
  | option (item : Ty)
  /-- A box or a record of one unnamed field: its content, without the bulk path. -/
  | wrapped (item : Ty)
  | list (item : Ty)
  | array (item : Ty) (length : Nat)
  | map (key value : Ty)
  /-- Its values list their entries in the order in which they are handed out. -/
  | hashMap (order : Assoc.HashOrder Value Value) (key value : Ty)
  | grid (item : Ty) (rank : Nat)
  | rankedGrid (item : Ty)
  /-- With `packed`, runs are copied as blocks. -/
  | record (name : String) (packed : Bool) (fields : Fields)
  | union (name : String) (alternatives : Alternatives)
  | enum (name : String) (kind : IntKind) (cases : List (String × Int))
  | fix (body : Ty)
  | self
inductive Fields where
  | nil
  | cons (name : String) (type : Ty) (rest : Fields)
inductive Alternatives where
  | nil
  | cons (name : String) (fields : Fields) (rest : Alternatives)
end

instance : Inhabited Ty := ⟨.unit⟩

def Fields.ofList : List (String × Ty) → Fields
  | [] => .nil
  | (name, type) :: rest => .cons name type (ofList rest)

def Fields.toList : Fields → List (String × Ty)
  | .nil => []
  | .cons name type rest => (name, type) :: rest.toList

def Alternatives.ofList : List (String × List (String × Ty)) → Alternatives
  | [] => .nil
  | (name, fields) :: rest => .cons name (Fields.ofList fields) (ofList rest)

def Alternatives.toList : Alternatives → List (String × List (String × Ty))
  | .nil => []
  | .cons name fields rest => (name, fields.toList) :: rest.toList

-- ---------------------------------------------------------------------------
-- Layouts
-- ---------------------------------------------------------------------------

def floatLayout (precision : Precision) : Layout Value :=
  (Layout.word precision.width).xmap .float Value.toBits

def complexLayout (precision : Precision) : Layout Value :=
  (Layout.cons (floatLayout precision) (.cons (floatLayout precision) .nil)).xmap
    .record Value.toFields

mutual
/-- The layout of a type whose runs can be copied as blocks. -/
def Ty.layout? : Ty → Option (Layout Value)
  | .int .u8 => some ((Layout.octet false).xmap .int Value.toInt)
  | .int .i8 => some ((Layout.octet true).xmap .int Value.toInt)
  | .float precision => some (floatLayout precision)
  | .complex precision => some (complexLayout precision)
  | .array item length => item.layout?.map fun l => (l.array length).xmap .list Value.toItems
  | .record _ true fields => fields.layout?.map (·.xmap .record Value.toFields)
  | _ => none
def Fields.layout? : Fields → Option (Layout (List Value))
  | .nil => some .nil
  | .cons _ type rest =>
    match type.layout?, rest.layout? with
    | some head, some tail => some (head.cons tail)
    | _, _ => none
end

-- ---------------------------------------------------------------------------
-- Codecs
-- ---------------------------------------------------------------------------

def floatCodec (precision : Precision) : Codec Value :=
  (Codec.word precision.width).xmap .float Value.toBits

def complexCodec (precision : Precision) : Codec Value :=
  .bulk (complexLayout precision) <|
    (Codec.cons (floatCodec precision) (.cons (floatCodec precision) .nil)).xmap
      .record Value.toFields

mutual
/-- The codec of a type, given that of the type that `self` stands for. -/
def Ty.codecIn (self : Unit → Codec Value) : Ty → Codec Value
  | .bool => Codec.bool.xmap .bool Value.toBool
  | .int kind => (Codec.int kind).xmap .int Value.toInt
  | .float precision => floatCodec precision
  | .complex precision => complexCodec precision
  | .string => Codec.string.xmap .string Value.toText
  | .unit => Codec.unit.xmap (fun _ => .unit) (fun _ => ())
  | .option item => (Codec.option (item.codecIn self)).xmap Value.ofOption Value.toOption
  | .wrapped item => Codec.wrapped (item.codecIn self)
  | .list item => (Codec.list (item.codecIn self)).xmap .list Value.toItems
  | .array item length => (Codec.array length (item.codecIn self)).xmap .list Value.toItems
  | .map key value =>
    (Codec.assoc (key.codecIn self) (value.codecIn self)).xmap .map Value.toEntries
  | .hashMap order key value =>
    (Codec.hashed order (key.codecIn self) (value.codecIn self)).xmap .map Value.toEntries
  | .grid item rank => (Codec.grid rank (item.codecIn self)).xmap Value.ofGrid Value.toGrid
  | .rankedGrid item => (Codec.rankedGrid (item.codecIn self)).xmap Value.ofGrid Value.toGrid
  | .record name packed fields =>
    let plain := Codec.wrapped ((fields.codecIn self).xmap .record Value.toFields)
    match (Ty.record name packed fields).layout? with
    | some layout => plain.bulk layout
    | none => plain
  | .union name alternatives =>
    (Codec.union name (alternatives.codecsIn self)).xmap Value.ofVariant Value.toVariant
  | .enum name kind cases =>
    (Codec.enum name kind (cases.map (·.2))).xmap (.variant · []) (·.toVariant.1)
  | .fix body => Codec.fix fun inner => body.codecIn inner
  | .self => Codec.delayed self
def Fields.codecIn (self : Unit → Codec Value) : Fields → Codec (List Value)
  | .nil => Codec.nil
  | .cons _ type rest => Codec.cons (type.codecIn self) (rest.codecIn self)
def Alternatives.codecsIn (self : Unit → Codec Value) : Alternatives → List (Codec (List Value))
  | .nil => []
  | .cons _ fields rest => fields.codecIn self :: rest.codecsIn self
end

def Ty.codec (type : Ty) : Codec Value := type.codecIn fun _ => Codec.unreachable

end TypedStream
