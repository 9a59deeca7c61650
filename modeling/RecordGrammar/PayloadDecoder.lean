import RecordGrammar.DecodedValue
import RecordGrammar.JsonReader
import RecordGrammar.Registry

/-! # Checking payloads against a schema -/

namespace RecordGrammar

inductive PathStep where
  | field (name : String)
  | index (i : Nat)
  deriving DecidableEq, Repr

/-- A place inside a payload, from the root on. -/
abbrev PayloadPath := List PathStep

namespace PayloadPath

def stepText : PathStep → String
  | .field name => "." ++ name
  | .index i => "[" ++ toString i ++ "]"

/-- `$` for the root, else as in `a.b[2].c`. -/
def text : PayloadPath → String
  | [] => "$"
  | .field name :: rest => name ++ String.join (rest.map stepText)
  | path => String.join (path.map stepText)

end PayloadPath

inductive PayloadError where
  | typeMismatch (path : PayloadPath) (expected : String) (actual : Json)
  | notAMember (path : PayloadPath) (actual : Json) (allowed : List Literal)
  | missingField (path : PayloadPath) (actual : Json)
  | arity (path : PayloadPath) (expected : Nat) (actual : List Json)
  | depthExceeded (path : PayloadPath) (limit : Nat)
  | schema (error : SchemaError)
  | invalidJson

namespace PayloadError

def message : PayloadError → String
  | .typeMismatch path expected actual =>
    PayloadPath.text path ++ ": expected " ++ expected ++ ", found " ++ actual.compact
  | .notAMember path actual allowed =>
    PayloadPath.text path ++ ": " ++ actual.compact ++ " is not one of [" ++
      ", ".intercalate (allowed.map Literal.text) ++ "]"
  | .missingField path _ => PayloadPath.text path ++ ": missing required field"
  | .arity path expected actual =>
    PayloadPath.text path ++ ": expected " ++ toString expected ++ " items, found " ++
      toString actual.length
  | .depthExceeded path limit =>
    PayloadPath.text path ++ ": payload nesting exceeds the depth limit of " ++ toString limit
  | .schema error => error.message
  | .invalidJson => "invalid JSON payload"

/-- Where the value is that failed to decode. -/
def path? : PayloadError → Option PayloadPath
  | .typeMismatch path _ _ => some path
  | .notAMember path _ _ => some path
  | .missingField path _ => some path
  | .arity path _ _ => some path
  | .depthExceeded path _ => some path
  | .schema _ => none
  | .invalidJson => none

/-- The value that failed to decode; for a missing field, the object without it. -/
def actual? : PayloadError → Option Json
  | .typeMismatch _ _ actual => some actual
  | .notAMember _ actual _ => some actual
  | .missingField _ actual => some actual
  | .arity _ _ actual => some (.array actual)
  | .depthExceeded _ _ => none
  | .schema _ => none
  | .invalidJson => none

end PayloadError

abbrev Decoding := Except PayloadError

/-- Where a decoding step stands. -/
structure DecodeSite where
  registry : Registry
  options : SchemaOptions
  path : PayloadPath := []

namespace DecodeSite

def inside (site : DecodeSite) (step : PathStep) : DecodeSite :=
  { site with path := site.path ++ [step] }

def mismatch {α : Type} (site : DecodeSite) (expected : String) (actual : Json) : Decoding α :=
  .error (.typeMismatch site.path expected actual)

/-- What a view of the value gives, or a mismatch with the type. -/
def expect {α : Type} (site : DecodeSite) (type : FieldType) (value : Json) (view : Option α) :
    Decoding α :=
  view.elim (site.mismatch type.text value) .ok

end DecodeSite

def ofSchema {α : Type} : Except SchemaError α → Decoding α
  | .ok a => .ok a
  | .error e => .error (.schema e)

/-- Decodes a value at a type inside the record that its factory was asked for. -/
abbrev TypeDecoder := DecodeSite → String → FieldType → Json → Decoding DecodedValue

/-- The decoders of the level at hand and of the one below it. -/
structure DecodeLevels where
  here : TypeDecoder
  below : Option TypeDecoder

namespace PayloadDecoder

def member (site : DecodeSite) (literals : List Literal) (value : Json) : Decoding DecodedValue :=
  match literals.find? (·.holds value) with
  | some l => .ok (.literal l)
  | none => .error (.notAMember site.path value literals)

/-- Items at their types, position by position from `i` on. -/
def items (itemType : TypeDecoder) (site : DecodeSite) (root : String) :
    Nat → List FieldType → List Json → Decoding (List DecodedValue)
  | i, type :: types, value :: values => do
    let item ← itemType (site.inside (.index i)) root type value
    let rest ← items itemType site root (i + 1) types values
    return item :: rest
  | _, _, _ => .ok []

def field (fieldType : TypeDecoder) (site : DecodeSite) (root : String) (field : Field)
    (members : List (String × Json)) : Decoding (String × DecodedValue) := do
  ofSchema field.checkOverride
  let site := site.inside (.field field.name)
  match members.lookup field.name with
  | none => throw (.missingField site.path (.object members))
  | some value =>
    let decoded ← fieldType site root field.type value
    return (field.name, decoded)

/-- A record from an object, which may hold further keys. -/
def object (fieldType : TypeDecoder) (site : DecodeSite) (root name : String) (value : Json) :
    Decoding DecodedValue := do
  let definition ← ofSchema (site.registry.record name)
  match value with
  | .object members =>
    let fields ← definition.visibleFields.mapM fun f => field fieldType site root f members
    return .record name fields
  | _ => site.mismatch name value

/-- A record by its factory. -/
def delegate (levels : DecodeLevels) (site : DecodeSite) (name : String) (value : Json) :
    Factory → Decoding DecodedValue
  | .json => object levels.here site name name value
  | .fixed => .ok (.string "x")
  | .nullable =>
    match value, levels.below with
    | .null, _ => .ok (.list [])
    | _, some below => object below site name name value
    | _, none => .error (.depthExceeded site.path site.options.maxDepth)
  | .masked mask =>
    match value with
    | .string s => .ok (.string s)
    | _ => site.mismatch ("mask " ++ mask) value
  | .boxed other =>
    match value with
    | .array (item :: _) => do
      let inner ← object levels.here (site.inside (.index 0)) other other item
      return .tuple [inner]
    | _ => site.mismatch name value
  | .plain =>
    .ok (.tuple [.int (Int64.ofNat site.options.maxDepth), .string (PayloadPath.text site.path)])

/-- A field of a record type is delegated to the factory of that record, unless it is the record
that the factory at work was asked for. -/
def recordField (levels : DecodeLevels) (site : DecodeSite) (root name : String) (value : Json) :
    Decoding DecodedValue :=
  match if name = root then none else site.registry.factory? name with
  | some factory => delegate levels site name value factory
  | none => object levels.here site root name value

/-- One level of a type, its parts being left to the decoder of that level. -/
def typeLevel (levels : DecodeLevels) : TypeDecoder := fun site root type value =>
  match type with
  | .int => (site.expect type value value.int64?).map .int
  | .float => (site.expect type value value.double?).map .float
  | .string => (site.expect type value value.string?).map .string
  | .bool => (site.expect type value value.bool?).map .bool
  | .variadic => .error (.schema (.notARecord type))
  | .unknownList => .error (.schema .unresolvedListElement)
  | .list element => do
    let values ← site.expect type value value.array?
    let decoded ← items levels.here site root 0 (values.map fun _ => element) values
    return .list decoded
  | .tuple types => do
    ofSchema (checkTuple types)
    let values ← site.expect type value value.array?
    if values.length = types.length then
      let decoded ← items levels.here site root 0 types values
      return .tuple decoded
    else
      throw (.arity site.path types.length values)
  | .literal l => member site [l] value
  | .union members => do
    let literals ← ofSchema (unionLiterals members)
    member site literals value
  | .record name => recordField levels site root name value

/-- Decodes at a type that may nest as many levels deep as are left. -/
def type : Nat → TypeDecoder
  | 0, site, _, _, _ => .error (.depthExceeded site.path site.options.maxDepth)
  | left + 1, site, root, ty, value =>
    typeLevel ⟨type left, match left with
      | 0 => none
      | deeper + 1 => some (type deeper)⟩ site root ty value

def levels (left : Nat) : DecodeLevels :=
  ⟨type left, match left with
    | 0 => none
    | deeper + 1 => some (type deeper)⟩

theorem type_succ (left : Nat) (site : DecodeSite) (root : String) (ty : FieldType)
    (value : Json) :
    type (left + 1) site root ty value = typeLevel (levels left) site root ty value := by
  cases left <;> rfl

end PayloadDecoder

open PayloadDecoder in
/-- Checks a payload against a record. -/
def decodeRecord (registry : Registry) (root : String) (options : SchemaOptions) (value : Json) :
    Decoding DecodedValue := do
  let _ ← ofSchema (registry.record root)
  delegate (levels options.maxDepth) ⟨registry, options, []⟩ root value
    (registry.factoryOrJson root)

/-- Reads a payload and checks it against a record. -/
def decodeText (registry : Registry) (root : String) (options : SchemaOptions) (payload : String) :
    Decoding DecodedValue :=
  match Json.ofText? payload with
  | some value => decodeRecord registry root options value
  | none => .error .invalidJson

end RecordGrammar
