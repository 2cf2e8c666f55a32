import TypedStream.IntKind

/-!
# Errors

Every failure is a cause; its wording is given once, by `Error.message`. Truncation
(`endOfStream`) is kept apart from malformed data (`format`), so that a stream that stops at a
block boundary can be told from a damaged one.
-/

namespace TypedStream

inductive StepKind where
  | scalar
  | stream
  deriving DecidableEq, Repr

def StepKind.label : StepKind → String
  | .scalar => "Scalar"
  | .stream => "Stream"

inductive Call where
  | write (step : String)
  | finish (step : String)
  | writeOrFinish (step : String)
  | read (step : String)
  | close
  deriving DecidableEq, Repr

def Call.text : Call → String
  | .write step => s!"'write_{step}()'"
  | .finish step => s!"'end_{step}()'"
  | .writeOrFinish step => s!"'write_{step}()' or 'end_{step}()'"
  | .read step => s!"'read_{step}()'"
  | .close => "'close()'"

inductive DeviceFault where
  | other
  | permissionDenied
  | invalidInput
  | unsupported
  | notFound
  | unexpectedEof
  deriving DecidableEq, Repr

def DeviceFault.text : DeviceFault → String
  | .other => "device failure"
  | .permissionDenied => "permission denied"
  | .invalidInput => "invalid seek to a negative position"
  | .unsupported => "pipe is not seekable"
  | .notFound => "no such file or directory"
  | .unexpectedEof => "unexpected end of file"

inductive Malformed where
  | varintTooLong
  | invalidBoolean (byte : Nat)
  | invalidOptionFlag (byte : Nat)
  | outOfRange (value : Int) (kind : IntKind)
  | stringNotUtf8
  | arrayCountOverflow
  | shapeOverflow (shape : List Nat)
  | shapeMismatch (shape : List Nat) (needed found : Nat)
  | unionIndex (index alternatives : Nat)
  | unknownAlternative (type : String) (index : Nat)
  | unknownEnumValue (type : String) (value : Int)
  | notThisFormat
  | formatVersion (found supported : Nat)
  | schemaTooLong (length : Nat)
  | schemaNotUtf8
  | notFinished
  deriving DecidableEq, Repr

def shapeText (shape : List Nat) : String :=
  "[" ++ ", ".intercalate (shape.map toString) ++ "]"

def Malformed.message : Malformed → String
  | .varintTooLong => "varint exceeds 64 bits"
  | .invalidBoolean byte => s!"invalid boolean value {byte}"
  | .invalidOptionFlag byte => s!"invalid optional flag {byte}"
  | .outOfRange value kind => s!"value {value} out of range for {kind.name}"
  | .stringNotUtf8 => "string is not valid UTF-8"
  | .arrayCountOverflow => "array count overflows"
  | .shapeOverflow shape => s!"array shape {shapeText shape} overflows"
  | .shapeMismatch shape needed found =>
    s!"array shape {shapeText shape} needs {needed} elements, found {found}"
  | .unionIndex index alternatives =>
    s!"union index {index} out of range for {alternatives} alternatives"
  | .unknownAlternative type index => s!"invalid {type} alternative {index}"
  | .unknownEnumValue type value => s!"invalid {type} value {value}"
  | .notThisFormat => "data in the stream is not in the expected format"
  | .formatVersion found supported =>
    s!"unsupported format version {found} (expected {supported})"
  | .schemaTooLong length => s!"schema length {length} is implausible"
  | .schemaNotUtf8 => "schema text is not valid UTF-8"
  | .notFinished => "stream was not completely read"

inductive Refusal where
  | outOfOrder (expected attempted : Call)
  | noStep (protocol : String) (step : Nat)
  | wrongKind (protocol step : String) (kind : StepKind)
  deriving DecidableEq, Repr

def Refusal.message : Refusal → String
  | .outOfOrder expected attempted =>
    s!"Expected call to {expected.text} but received call to {attempted.text} instead."
  | .noStep protocol step => s!"protocol {protocol} has no step {step}"
  | .wrongKind protocol step kind =>
    s!"step '{step}' of protocol {protocol} is not a {kind.label} step"

inductive Damage where
  | truncated
  | malformed (cause : Malformed)
  deriving DecidableEq, Repr

def Damage.message : Damage → String
  | .truncated => "unexpected end of stream"
  | .malformed cause => s!"format error: {cause.message}"

inductive IndexFault where
  | cannotBuild (fault : DeviceFault)
  | noPosition (fault : DeviceFault)
  | tooShort
  | pointerUnreadable (damage : Damage)
  | notFound
  | notIndexFormat
  | indexVersion (found : Nat)
  | unreadable (damage : Damage)
  | trailingBytes
  | unknownStep (step : String)
  | itemOutOfRange (item : Nat) (step : String) (count : Nat)
  deriving DecidableEq, Repr

def IndexFault.message : IndexFault → String
  | .cannotBuild fault => s!"cannot build index: {fault.text}"
  | .noPosition fault => s!"cannot read index: {fault.text}"
  | .tooShort => "stream is too short to hold an index"
  | .pointerUnreadable damage => s!"cannot read index: {damage.message}"
  | .notFound => "index not found in stream"
  | .notIndexFormat => "index in the stream is not in the expected format"
  | .indexVersion found => s!"unsupported index format version {found}"
  | .unreadable damage => s!"index in the stream is unreadable: {damage.message}"
  | .trailingBytes => "index section has unexpected trailing bytes"
  | .unknownStep step => s!"step '{step}' is not in the index"
  | .itemOutOfRange item step count =>
    s!"item {item} is out of range for stream '{step}' with {count} items"

inductive TextFault where
  | empty
  | invalidDigit
  | tooLarge
  | tooSmall
  | notBoolean
  deriving DecidableEq, Repr

def TextFault.message : TextFault → String
  | .empty => "cannot parse integer from empty string"
  | .invalidDigit => "invalid digit found in string"
  | .tooLarge => "number too large to fit in target type"
  | .tooSmall => "number too small to fit in target type"
  | .notBoolean => "provided string was not `true` or `false`"

inductive Inconvertible where
  | unparsable (text type : String) (fault : TextFault)
  | doesNotFit (value : Int) (kind : IntKind)
  | alternativeGone (index : Nat)
  deriving DecidableEq, Repr

def Inconvertible.message : Inconvertible → String
  | .unparsable text type fault => s!"cannot convert '{text}' to {type}: {fault.message}"
  | .doesNotFit value kind => s!"{value} does not fit in {kind.name}"
  | .alternativeGone index =>
    s!"union alternative {index} has no counterpart in the current type"

inductive Error where
  | io (fault : DeviceFault)
  | endOfStream
  | format (cause : Malformed)
  | incompatibleSchema (protocol : String)
  | protocol (refusal : Refusal)
  | zeroCapacity
  | index (fault : IndexFault)
  | conversion (cause : Inconvertible)
  deriving DecidableEq, Repr

namespace Error

def message : Error → String
  | .io fault => s!"I/O error: {fault.text}"
  | .endOfStream => Damage.truncated.message
  | .format cause => (Damage.malformed cause).message
  | .incompatibleSchema name =>
    s!"the schema of the data does not match any version supported by protocol {name}"
  | .protocol refusal => s!"protocol error: {refusal.message}"
  | .zeroCapacity => "batch reads require a buffer capacity greater than zero"
  | .index fault => s!"index error: {fault.message}"
  | .conversion cause => s!"conversion error: {cause.message}"

/-- A device that ends too early is a truncated stream; its other faults stay what they are. -/
def ofFault : DeviceFault → Error
  | .unexpectedEof => .endOfStream
  | fault => .io fault

def damage? : Error → Option Damage
  | .endOfStream => some .truncated
  | .format cause => some (.malformed cause)
  | _ => none

/-- A reader or writer cannot go on after this error. -/
def fatal : Error → Bool
  | .io _ | .endOfStream | .format _ | .conversion _ => true
  | _ => false

end Error

end TypedStream
