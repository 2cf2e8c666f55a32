/-!
# Schema documents

A schema text is a JSON document without white space. Protocols treat these texts as a whole and
only compare them; this module is where such a text is put together.
-/

namespace TypedStream

inductive SchemaDoc where
  | null
  | number (n : Nat)
  /-- A text without quotes, backslashes and control characters. -/
  | text (content : String)
  | list (items : List SchemaDoc)
  | object (members : List (String × SchemaDoc))

namespace SchemaDoc

def quoted (content : String) : String := "\"" ++ content ++ "\""

mutual
def render : SchemaDoc → String
  | null => "null"
  | number n => toString n
  | text content => quoted content
  | list items => "[" ++ renderItems items ++ "]"
  | object members => "\x7b" ++ renderMembers members ++ "\x7d"
def renderItems : List SchemaDoc → String
  | [] => ""
  | [item] => item.render
  | item :: rest => item.render ++ "," ++ renderItems rest
def renderMembers : List (String × SchemaDoc) → String
  | [] => ""
  | [(name, value)] => quoted name ++ ":" ++ value.render
  | (name, value) :: rest => quoted name ++ ":" ++ value.render ++ "," ++ renderMembers rest
end

def typed (name : String) (type : SchemaDoc) : SchemaDoc :=
  object [("name", text name), ("type", type)]

def record (name : String) (fields : List SchemaDoc) : SchemaDoc :=
  object [("name", text name), ("fields", list fields)]

def optional (type : String) : SchemaDoc := list [null, text type]

def stream (item : String) : SchemaDoc := object [("stream", object [("items", text item)])]

def vector (item : String) : SchemaDoc := object [("vector", object [("items", text item)])]

def array (item : String) (dimensions : List Nat) : SchemaDoc :=
  object [("array", object [("items", text item), ("dimensions", list (dimensions.map number))])]

end SchemaDoc

end TypedStream
