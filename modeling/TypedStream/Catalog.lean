import TypedStream.Ty

/-!
# A catalog of declared types

Declared types of every form: records packed and plain, recursive records and unions, enums of
several widths, and the two type constructors `pair` and `either`.
-/

namespace TypedStream

namespace Catalog

def pixelFields : Fields := .ofList
  [("r", .int .u8), ("g", .int .u8), ("b", .int .u8), ("a", .int .i8),
   ("weight", .float .single), ("phase", .complex .single)]

/-- A record of one-byte integers and floats whose runs are copied as blocks. -/
def pixel : Ty := .record "Pixel" true pixelFields

/-- The same fields without the bulk path. -/
def plainPixel : Ty := .record "PlainPixel" false pixelFields

def treeNode : Ty :=
  .fix <| .record "TreeNode" false <| .ofList
    [("label", .string), ("left", .option (.wrapped .self)), ("right", .option (.wrapped .self))]

def pair (key value : Ty) : Ty := .record "Pair" false (.ofList [("key", key), ("value", value)])

def meters : Ty := .wrapped (.float .double)

def marker : Ty := .unit

def fruit : Ty := .enum "Fruit" .u8 [("Apple", 0), ("Banana", 7), ("Cherry", 200)]

def priority : Ty := .enum "Priority" .i32 [("Low", -10), ("High", 10)]

def level : Ty := .enum "Level" .i32 [("Quiet", 5), ("Loud", 10), ("Muted", -3)]

def letter : Ty := .enum "Letter" .i32 [("A", 0), ("B", 1), ("C", 2)]

def wide : Ty :=
  .enum "Wide" .u64
    [("Zero", 0), ("Big", 9223372036854775808), ("Max", 18446744073709551615)]

def tiny : Ty := .enum "Tiny" .i8 [("Min", -128), ("None", 0), ("Max", 127)]

def shape : Ty :=
  .fix <| .union "Shape" <| .ofList
    [("Empty", []), ("Circle", [("radius", .float .single)]),
     ("Polygon", [("0", .list meters), ("1", marker)]),
     ("Tagged", [("0", .wrapped .self), ("1", .string)])]

def either (left right : Ty) : Ty :=
  .union "Either" (.ofList [("Left", [("0", left)]), ("Right", [("0", right)])])

end Catalog

end TypedStream
