import TypedStream.Codec.Basic
import TypedStream.Value

/-!
# Re-typing

Conversions for values whose declared type changed between versions of a schema: integers of one
kind to another, texts to numbers and back, and the alternatives of a union under their new
numbers.
-/

namespace TypedStream

-- ---------------------------------------------------------------------------
-- Text
-- ---------------------------------------------------------------------------

/-- The characters with the Unicode property White_Space. -/
def isBlank (c : Char) : Bool :=
  let n := c.toNat
  (0x9 ≤ n && n ≤ 0xd) || n == 0x20 || n == 0x85 || n == 0xa0 || n == 0x1680
    || (0x2000 ≤ n && n ≤ 0x200a) || n == 0x2028 || n == 0x2029 || n == 0x202f || n == 0x205f
    || n == 0x3000

def trimBlanks (cs : List Char) : List Char :=
  ((cs.dropWhile isBlank).reverse.dropWhile isBlank).reverse

namespace Retype

def digit? (c : Char) : Option Nat :=
  if '0' ≤ c ∧ c ≤ '9' then some (c.toNat - '0'.toNat) else none

/-- Digits after those that gave `value`, towards the kind's upper or lower end. The first digit
that is none, or that leads out of the kind, decides. -/
def digits (kind : IntKind) (negative : Bool) : List Char → Int → Except TextFault Int
  | [], value => .ok value
  | c :: cs, value =>
    match digit? c with
    | none => .error .invalidDigit
    | some d =>
      if negative then
        let next := value * 10 - d
        if next < kind.lo then .error .tooSmall else digits kind negative cs next
      else
        let next := value * 10 + d
        if kind.hi < next then .error .tooLarge else digits kind negative cs next

/-- A decimal integer: digits, after a plus sign or, for a signed kind, a minus sign. -/
def intOfChars (kind : IntKind) : List Char → Except TextFault Int
  | [] => .error .empty
  | ['+'] | ['-'] => .error .invalidDigit
  | '+' :: cs => digits kind false cs 0
  | '-' :: cs => if kind.signed then digits kind true cs 0 else .error .invalidDigit
  | cs => digits kind false cs 0

def boolOfChars (cs : List Char) : Except TextFault Bool :=
  if cs = "true".toList then .ok true
  else if cs = "false".toList then .ok false
  else .error .notBoolean

/-- Reads a trimmed text; a text that cannot be read is reported whole. -/
def parse (type : String) (read : List Char → Except TextFault α) (text : String) :
    Except Error α :=
  match read (trimBlanks text.toList) with
  | .ok value => .ok value
  | .error fault => .error (.conversion (.unparsable text type fault))

def parseInt (kind : IntKind) (text : String) : Except Error Int :=
  parse kind.name (intOfChars kind) text

def parseBool (text : String) : Except Error Bool := parse "bool" boolOfChars text

def formatInt (v : Int) : String := toString v

def formatBool (b : Bool) : String := if b then "true" else "false"

def toKind (kind : IntKind) (v : Int) : Except Error Int :=
  if kind.Holds v then .ok v else .error (.conversion (.doesNotFit v kind))

end Retype

-- ---------------------------------------------------------------------------
-- Unions
-- ---------------------------------------------------------------------------

/-- Where the alternatives of an older union are in the current one. -/
structure UnionRemap where
  table : List (Option Nat)
  deriving DecidableEq, Repr

namespace UnionRemap

def alternatives (remap : UnionRemap) : Nat := remap.table.length

def resolve (remap : UnionRemap) (index : Nat) : Except Error Nat :=
  match remap.table[index]? with
  | some (some current) => .ok current
  | some none => .error (.conversion (.alternativeGone index))
  | none => .error (.format (.unionIndex index remap.alternatives))

end UnionRemap

-- ---------------------------------------------------------------------------
-- Decoders of older wire forms
-- ---------------------------------------------------------------------------

namespace Legacy

def lift (result : Except Error α) : Decoder α :=
  match result with
  | .ok value => pure value
  | .error error => Decoder.fail error

def integer (old new : IntKind) : Decoder Value := do
  return .int (← lift (Retype.toKind new (← (Codec.int old).read)))

def parsed (kind : IntKind) : Decoder Value := do
  return .int (← lift (Retype.parseInt kind (← Codec.string.read)))

def formatted (kind : IntKind) : Decoder Value := do
  return .string (Retype.formatInt (← (Codec.int kind).read))

end Legacy

end TypedStream
