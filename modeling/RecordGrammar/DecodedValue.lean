import RecordGrammar.RecordSchema

/-! # Decoded payloads and their two renderings -/

namespace RecordGrammar

/-- A payload that conforms to its schema. -/
inductive DecodedValue where
  | int (n : Int64)
  | float (x : Double)
  | string (s : String)
  | bool (b : Bool)
  | list (items : List DecodedValue)
  | tuple (items : List DecodedValue)
  | literal (value : Literal)
  | record (name : String) (fields : List (String × DecodedValue))
  deriving Repr, BEq

namespace DecodedValue

/-- The first field of a name. -/
def field? (name : String) : DecodedValue → Option DecodedValue
  | .record _ fields => fields.lookup name
  | _ => none

/-- JSON has no text for a double that is not finite. -/
def doubleToJson : Double → Json
  | .finite x => .number (.float x)
  | _ => .null

mutual

def toJson : DecodedValue → Json
  | .int n => .number (.int n.toInt)
  | .float x => doubleToJson x
  | .string s => .string s
  | .bool b => .bool b
  | .list items => .array (itemsToJson items)
  | .tuple items => .array (itemsToJson items)
  | .literal value => value.toJson
  | .record _ fields => .ofMembers (fieldsToJson fields)

def itemsToJson : List DecodedValue → List Json
  | [] => []
  | item :: rest => item.toJson :: itemsToJson rest

def fieldsToJson : List (String × DecodedValue) → List (String × Json)
  | [] => []
  | (name, value) :: rest => (name, value.toJson) :: fieldsToJson rest

end

mutual

/-- The canonical text that the grammar of the record derives: fields in their order, a comma and a
space between entries, a colon and a space after a name. -/
def canonicalText : DecodedValue → String
  | .list items => "[" ++ ", ".intercalate (canonicalItems items) ++ "]"
  | .tuple items => "[" ++ ", ".intercalate (canonicalItems items) ++ "]"
  | .record _ fields => "\x7b" ++ ", ".intercalate (canonicalFields fields) ++ "\x7d"
  | scalar => scalar.toJson.compact

def canonicalItems : List DecodedValue → List String
  | [] => []
  | item :: rest => item.canonicalText :: canonicalItems rest

def canonicalFields : List (String × DecodedValue) → List String
  | [] => []
  | (name, value) :: rest =>
    (jsonString name ++ ": " ++ value.canonicalText) :: canonicalFields rest

end

end DecodedValue

end RecordGrammar
