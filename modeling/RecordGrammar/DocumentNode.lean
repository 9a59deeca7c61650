import RecordGrammar.JsonValue

/-! # The tree of a text document before it is given a meaning

A mapping keeps all its entries in their order, repeated keys too. What has the shape of a value
but cannot be used as one is a leaf `unreadable`; it does no harm where nobody looks. -/

namespace RecordGrammar

inductive Node where
  | null
  | bool (b : Bool)
  | int (n : Int)
  | float (x : Double)
  | string (s : String)
  | sequence (items : List Node)
  | mapping (entries : List (String × Node))
  | unreadable
  deriving Repr

namespace Node

def ofNumber : JsonNumber → Node
  | .int n => .int n
  | .float x => .float (.finite x)

mutual

/-- The JSON value of a tree that is readable throughout. -/
def toJson? : Node → Option Json
  | .null => some .null
  | .bool b => some (.bool b)
  | .int n => some (.number (.int n))
  | .float (.finite x) => some (.number (.float x))
  | .float _ => none
  | .string s => some (.string s)
  | .sequence items => (itemsToJson? items).map .array
  | .mapping entries => (entriesToJson? entries).map .ofMembers
  | .unreadable => none

def itemsToJson? : List Node → Option (List Json)
  | [] => some []
  | item :: rest => do
    let item ← item.toJson?
    let rest ← itemsToJson? rest
    return item :: rest

def entriesToJson? : List (String × Node) → Option (List (String × Json))
  | [] => some []
  | (key, value) :: rest => do
    let value ← value.toJson?
    let rest ← entriesToJson? rest
    return (key, value) :: rest

end

end Node

end RecordGrammar
