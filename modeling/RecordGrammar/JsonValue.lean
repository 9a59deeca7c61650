import RecordGrammar.JsonString
import RecordGrammar.ShortestDecimal

/-! # JSON values and their text

The keys of an object ascend and are distinct. `Json.ofMembers` makes such an object of any
members, the last of repeated ones winning. -/

namespace RecordGrammar

/-- An integer as one of 64 bits with a sign, if it fits. -/
def int64? (n : Int) : Option Int64 :=
  if Int64.minValue.toInt ≤ n ∧ n ≤ Int64.maxValue.toInt then some (Int64.ofInt n) else none

inductive JsonNumber where
  | int (n : Int)
  | float (x : FiniteDouble)
  deriving DecidableEq, Repr

inductive Json where
  | null
  | bool (b : Bool)
  | number (n : JsonNumber)
  | string (s : String)
  | array (items : List Json)
  | object (members : List (String × Json))
  deriving Repr, BEq

/-- Puts a member in its place among ascending keys, over one of the same key. -/
def insertMember {α : Type} (key : String) (value : α) : List (String × α) → List (String × α)
  | [] => [(key, value)]
  | (k, v) :: rest =>
    if key < k then (key, value) :: (k, v) :: rest
    else if key = k then (key, value) :: rest
    else (k, v) :: insertMember key value rest

def JsonNumber.text : JsonNumber → String
  | .int n => toString n
  | .float x => x.text

namespace Json

def ofMembers (members : List (String × Json)) : Json :=
  .object (members.foldl (fun sorted m => insertMember m.1 m.2 sorted) [])

mutual

/-- Text without any space. -/
def compact : Json → String
  | .null => "null"
  | .bool b => if b then "true" else "false"
  | .number n => n.text
  | .string s => jsonString s
  | .array items => "[" ++ ",".intercalate (compactItems items) ++ "]"
  | .object members => "\x7b" ++ ",".intercalate (compactMembers members) ++ "\x7d"

def compactItems : List Json → List String
  | [] => []
  | item :: rest => item.compact :: compactItems rest

def compactMembers : List (String × Json) → List String
  | [] => []
  | (key, value) :: rest => (jsonString key ++ ":" ++ value.compact) :: compactMembers rest

end

/-- Entries between brackets, each on a line of its own one step deeper. -/
def bracketLines (opening closing : String) (depth : Nat) (entries : List String) : String :=
  let margin (n : Nat) := "\n" ++ String.ofList (List.replicate (2 * n) ' ')
  if entries.isEmpty then opening ++ closing
  else opening ++ margin (depth + 1) ++ ("," ++ margin (depth + 1)).intercalate entries ++
    margin depth ++ closing

mutual

/-- Text over several lines, indented by two spaces a level. -/
def indented (depth : Nat) : Json → String
  | .array items => bracketLines "[" "]" depth (indentedItems (depth + 1) items)
  | .object members => bracketLines "\x7b" "\x7d" depth (indentedMembers (depth + 1) members)
  | scalar => scalar.compact

def indentedItems (depth : Nat) : List Json → List String
  | [] => []
  | item :: rest => item.indented depth :: indentedItems depth rest

def indentedMembers (depth : Nat) : List (String × Json) → List String
  | [] => []
  | (key, value) :: rest =>
    (jsonString key ++ ": " ++ value.indented depth) :: indentedMembers depth rest

end

def bool? : Json → Option Bool
  | .bool b => some b
  | _ => none

def string? : Json → Option String
  | .string s => some s
  | _ => none

def array? : Json → Option (List Json)
  | .array items => some items
  | _ => none

/-- An integer that fits 64 bits with a sign. A float is none, whatever its value. -/
def int64? : Json → Option Int64
  | .number (.int n) => RecordGrammar.int64? n
  | _ => none

/-- Any number, as the double nearest to it. -/
def double? : Json → Option Double
  | .number (.int n) => some (.ofInt n)
  | .number (.float x) => some (.finite x)
  | _ => none

end Json

end RecordGrammar
