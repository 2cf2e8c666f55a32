import TypedStream.Error

/-!
# Protocols

A protocol is a sequence of named steps, each a single value or a stream of items, with the schema
text that streams of the protocol carry and the texts that earlier versions carried.
-/

namespace TypedStream

structure Step where
  name : String
  kind : StepKind
  deriving DecidableEq, Repr

structure Protocol where
  name : String
  steps : List Step
  schema : String
  /-- The schema texts of earlier versions, oldest first. -/
  history : List String := []
  deriving DecidableEq, Repr

namespace Protocol

def stepCount (p : Protocol) : Nat := p.steps.length

def step? (p : Protocol) (ordinal : Nat) : Option Step := p.steps[ordinal]?

def ordinalOf? (p : Protocol) (name : String) : Option Nat := p.steps.findIdx? (·.name == name)

def stepLabel (p : Protocol) (ordinal : Nat) : String :=
  ((p.step? ordinal).map (·.name)).getD "<unknown>"

def stepOfKind (p : Protocol) (ordinal : Nat) (kind : StepKind) : Except Error Step :=
  match p.step? ordinal with
  | none => .error (.protocol (.noStep p.name ordinal))
  | some step =>
    if step.kind = kind then .ok step
    else .error (.protocol (.wrongKind p.name step.name kind))

-- ---------------------------------------------------------------------------
-- Schema versions
-- ---------------------------------------------------------------------------

/-- Versions are counted from the oldest, 0; this is the current one. -/
def currentVersion (p : Protocol) : Nat := p.history.length

/-- The version that a schema text belongs to. A text that occurs in the history means its oldest
place there. -/
def versionOf (p : Protocol) (schema : String) : Except Error Nat :=
  match p.history.findIdx? (· == schema) with
  | some version => .ok version
  | none =>
    if p.schema = schema then .ok p.currentVersion
    else .error (.incompatibleSchema p.name)

def schemaFor? (p : Protocol) (version : Nat) : Option String :=
  if version = p.currentVersion then some p.schema else p.history[version]?

def versionText (version : Nat) : String := s!"v{version}"

end Protocol

end TypedStream
