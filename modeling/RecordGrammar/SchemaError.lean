import RecordGrammar.RecordSchema
import RecordGrammar.RuleTable

/-! # What can be wrong with a schema -/

namespace RecordGrammar

inductive SchemaError where
  | unresolvedListElement
  | variadicTuple
  | emptyTuple
  | emptyUnion
  | nonLiteralUnion (member : FieldType)
  | mixedLiteralUnion (first second : LiteralKind)
  | unknownRecord (name : String)
  | notARecord (type : FieldType)
  | cycle (path : List String)
  | formatOnNonString (field : String) (type : FieldType)
  | depthExceeded (limit : Nat)
  | rule (error : RuleError)
  deriving DecidableEq, Repr

def SchemaError.message : SchemaError → String
  | .unresolvedListElement => "unable to determine list element type"
  | .variadicTuple => "`...` is not allowed in a tuple type, use a list instead"
  | .emptyTuple => "unable to determine tuple item types"
  | .emptyUnion => "unable to determine literal set: union has no members"
  | .nonLiteralUnion member => "all union members must be literals, found " ++ member.text
  | .mixedLiteralUnion first second =>
    "literal union mixes " ++ first.name ++ " and " ++ second.name ++ " values"
  | .unknownRecord name => "unknown record type `" ++ name ++ "`"
  | .notARecord type => "`" ++ type.text ++ "` is not a record type"
  | .cycle path => "recursive record type: " ++ " -> ".intercalate path
  | .formatOnNonString field type =>
    "field `" ++ field ++ "` is declared " ++ type.text ++
      "; only String fields take a format override"
  | .depthExceeded limit => "type nesting exceeds the depth limit of " ++ toString limit
  | .rule error => error.message

/-- A format takes the place of the grammar of a string, so no other type has one. -/
def Field.checkOverride (field : Field) : Except SchemaError Unit :=
  if field.format.isSome ∧ field.type ≠ .string then
    .error (.formatOnNonString field.name field.type)
  else .ok ()

def memberLiteral : FieldType → Except SchemaError Literal
  | .literal value => .ok value
  | other => .error (.nonLiteralUnion other)

/-- The members of a union: at least one, all of them literals, all of one kind. -/
def unionLiterals (members : List FieldType) : Except SchemaError (List Literal) := do
  match ← members.mapM memberLiteral with
  | [] => throw .emptyUnion
  | first :: rest =>
    match rest.find? (·.kind ≠ first.kind) with
    | some other => throw (.mixedLiteralUnion first.kind other.kind)
    | none => return first :: rest

/-- The items of a tuple: at least one, and no variadic marker among them. -/
def checkTuple (items : List FieldType) : Except SchemaError Unit :=
  if items.isEmpty then .error .emptyTuple
  else if items.any FieldType.isVariadic then .error .variadicTuple
  else .ok ()

end RecordGrammar
