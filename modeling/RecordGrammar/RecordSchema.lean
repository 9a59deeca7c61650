import RecordGrammar.JsonValue

/-! # Record schemas: types of fields, fields and records -/

namespace RecordGrammar

inductive LiteralKind where
  | bool
  | int
  | string
  deriving DecidableEq, Repr

def LiteralKind.name : LiteralKind → String
  | .bool => "bool"
  | .int => "int"
  | .string => "string"

/-- A value usable in a closed set. -/
inductive Literal where
  | bool (b : Bool)
  | int (n : Int64)
  | string (s : String)
  deriving DecidableEq, Repr

namespace Literal

def kind : Literal → LiteralKind
  | .bool _ => .bool
  | .int _ => .int
  | .string _ => .string

def toJson : Literal → Json
  | .bool b => .bool b
  | .int n => .number (.int n.toInt)
  | .string s => .string s

def text (l : Literal) : String := l.toJson.compact

/-- Whether a JSON value is this literal. A float is no integer, whatever its value. -/
def holds : Literal → Json → Bool
  | .bool b, .bool c => b == c
  | .int n, .number (.int m) => n.toInt == m
  | .string s, .string t => s == t
  | _, _ => false

end Literal

/-- The type of a field. `variadic` is a marker that no position accepts, and `unknownList` a list
whose element was left open. -/
inductive FieldType where
  | int
  | float
  | string
  | bool
  | variadic
  | list (element : FieldType)
  | unknownList
  | tuple (items : List FieldType)
  | literal (value : Literal)
  | union (members : List FieldType)
  | record (name : String)
  deriving Repr

namespace FieldType

mutual

def same : FieldType → FieldType → Bool
  | .int, .int => true
  | .float, .float => true
  | .string, .string => true
  | .bool, .bool => true
  | .variadic, .variadic => true
  | .list a, .list b => a.same b
  | .unknownList, .unknownList => true
  | .tuple as, .tuple bs => sameAll as bs
  | .literal a, .literal b => a == b
  | .union as, .union bs => sameAll as bs
  | .record a, .record b => a == b
  | _, _ => false

def sameAll : List FieldType → List FieldType → Bool
  | [], [] => true
  | a :: as, b :: bs => a.same b && sameAll as bs
  | _, _ => false

end

mutual

theorem same_iff : (a b : FieldType) → (a.same b = true ↔ a = b)
  | .int, b => by cases b <;> simp [same]
  | .float, b => by cases b <;> simp [same]
  | .string, b => by cases b <;> simp [same]
  | .bool, b => by cases b <;> simp [same]
  | .variadic, b => by cases b <;> simp [same]
  | .list a, b => by cases b <;> simp [same, same_iff a]
  | .unknownList, b => by cases b <;> simp [same]
  | .tuple as, b => by cases b <;> simp [same, sameAll_iff as]
  | .literal a, b => by cases b <;> simp [same]
  | .union as, b => by cases b <;> simp [same, sameAll_iff as]
  | .record a, b => by cases b <;> simp [same]

theorem sameAll_iff : (as bs : List FieldType) → (sameAll as bs = true ↔ as = bs)
  | [], bs => by cases bs <;> simp [sameAll]
  | a :: as, bs => by cases bs <;> simp [sameAll, same_iff a, sameAll_iff as]

end

instance : DecidableEq FieldType := fun a b => decidable_of_iff _ (same_iff a b)

mutual

def text : FieldType → String
  | .int => "Int"
  | .float => "Float"
  | .string => "String"
  | .bool => "Bool"
  | .variadic => "..."
  | .list element => "List<" ++ element.text ++ ">"
  | .unknownList => "List<?>"
  | .tuple items => "Tuple<" ++ ", ".intercalate (texts items) ++ ">"
  | .literal value => "Literal[" ++ value.text ++ "]"
  | .union members => " | ".intercalate (texts members)
  | .record name => name

def texts : List FieldType → List String
  | [] => []
  | type :: rest => type.text :: texts rest

end

def isVariadic : FieldType → Bool
  | .variadic => true
  | _ => false

end FieldType

/-- A grammar of its own for a string field, which is still read as a string. -/
inductive FieldFormat where
  | time (mask : String)
  | email
  deriving DecidableEq, Repr

/-- A derived field is output only: it is neither in the grammar nor read from a payload. -/
structure Field where
  name : String
  type : FieldType
  derived : Bool := false
  format : Option FieldFormat := none
  deriving DecidableEq, Repr

inductive BuiltinFactory where
  | json
  deriving DecidableEq, Repr

structure RecordSchema where
  fields : List Field
  factory : Option BuiltinFactory := none
  deriving DecidableEq, Repr

def RecordSchema.visibleFields (r : RecordSchema) : List Field := r.fields.filter (!·.derived)

structure SchemaOptions where
  /-- The stem of the ids of rules that belong to no fragment. -/
  stem : String := "__bnf"
  /-- Whether a record that is reached again while it is built gets a forward rule. -/
  allowRecursion : Bool := true
  /-- How deep types nest at most, when compiling and when decoding. -/
  maxDepth : Nat := 64
  deriving DecidableEq, Repr

end RecordGrammar
