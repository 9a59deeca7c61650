import RecordGrammar.DocumentNode
import RecordGrammar.Registry

/-! # Schema documents: a root record, options and records

What a document holds besides is ignored. A structure may be written as a mapping of its members,
or as a sequence of them in the order of their declaration with the last ones left out. An
alternative without content is its bare name, one with content a mapping of a single entry. -/

namespace RecordGrammar

/-- What a document is written in. This decides how an alternative without content may be written
as an entry, and whether a sequence may have more items than its structure has members. -/
inductive DocumentKind where
  | json
  | toml
  deriving DecidableEq, Repr

structure SchemaDocument where
  root : String
  options : SchemaOptions := {}
  records : Std.ExtTreeMap String RecordSchema := ∅
  deriving DecidableEq

namespace SchemaDocument

def registry (document : SchemaDocument) : Registry := { records := document.records }

/-- No field other than a string has a format. -/
def checkFormats (document : SchemaDocument) : Except SchemaError Unit :=
  document.records.toList.forM fun entry => entry.2.fields.forM Field.checkOverride

end SchemaDocument

namespace SchemaReader

/-- The members of a structure by name, each of them present once at most. -/
def members? (kind : DocumentKind) (names : List String) : Node → Option (List (Option Node))
  | .mapping entries => names.mapM fun name =>
    match entries.filter (·.1 == name) with
    | [] => some none
    | [entry] => some (some entry.2)
    | _ => none
  | .sequence items =>
    if kind = .json ∧ names.length < items.length then none
    else some ((List.range names.length).map fun i => items[i]?)
  | _ => none

def string? : Node → Option String
  | .string s => some s
  | _ => none

def bool? : Node → Option Bool
  | .bool b => some b
  | _ => none

/-- A whole number that fits 64 bits. -/
def size? : Node → Option Nat
  | .int n => if 0 ≤ n ∧ n < UInt64.size then some n.toNat else none
  | _ => none

/-- The content of an alternative that has none. -/
def isUnit : DocumentKind → Node → Bool
  | .json, .null => true
  | .toml, .sequence [] => true
  | .toml, .mapping [] => true
  | _, _ => false

def literal? : Node → Option Literal
  | .bool b => some (.bool b)
  | .int n => (int64? n).map .int
  | .string s => some (.string s)
  | _ => none

/-- The types that their name alone denotes. -/
def atom? : String → Option FieldType
  | "int" => some .int
  | "float" => some .float
  | "string" => some .string
  | "bool" => some .bool
  | "..." => some .variadic
  | _ => none

mutual

def type? (kind : DocumentKind) : Node → Option FieldType
  | .string name => atom? name
  | .mapping [(tag, content)] =>
    match tag with
    | "list" =>
      if kind = .json ∧ isUnit .json content then some .unknownList
      else (type? kind content).map .list
    | "tuple" => (typesOf? kind content).map .tuple
    | "literal" => (literal? content).map .literal
    | "union" => (typesOf? kind content).map .union
    | "record" => (string? content).map .record
    | name => if isUnit kind content then atom? name else none
  | _ => none

def typesOf? (kind : DocumentKind) : Node → Option (List FieldType)
  | .sequence items => types? kind items
  | _ => none

def types? (kind : DocumentKind) : List Node → Option (List FieldType)
  | [] => some []
  | item :: rest => do
    let type ← type? kind item
    let types ← types? kind rest
    return type :: types

end

def format? (kind : DocumentKind) : Node → Option FieldFormat
  | .string "email" => some .email
  | .mapping [("email", content)] => if isUnit kind content then some .email else none
  | .mapping [("time", .string mask)] => some (.time mask)
  | _ => none

def factory? (kind : DocumentKind) : Node → Option BuiltinFactory
  | .string "json" => some .json
  | .mapping [("json", content)] => if isUnit kind content then some .json else none
  | _ => none

/-- A member that may be null. -/
def nullable? {α : Type} (read : Node → Option α) : Node → Option (Option α)
  | .null => some none
  | node => (read node).map some

/-- A member that may be absent. -/
def default? {α : Type} (otherwise : α) (read : Node → Option α) : Option Node → Option α
  | none => some otherwise
  | some node => read node

def field? (kind : DocumentKind) (node : Node) : Option Field := do
  match ← members? kind ["name", "type", "derived", "format"] node with
  | [some name, some type, derived, format] =>
    return {
      name := ← string? name
      type := ← type? kind type
      derived := ← default? false bool? derived
      format := ← default? none (nullable? (format? kind)) format }
  | _ => none

def items? {α : Type} (read : Node → Option α) : Node → Option (List α)
  | .sequence items => items.mapM read
  | _ => none

def record? (kind : DocumentKind) (node : Node) : Option RecordSchema := do
  match ← members? kind ["fields", "factory"] node with
  | [some fields, factory] =>
    return {
      fields := ← items? (field? kind) fields
      factory := ← default? none (nullable? (factory? kind)) factory }
  | _ => none

def options? (kind : DocumentKind) (node : Node) : Option SchemaOptions := do
  match ← members? kind ["prefix", "allow_recursion", "max_depth"] node with
  | [stem, allowRecursion, maxDepth] =>
    return {
      stem := ← default? "__bnf" string? stem
      allowRecursion := ← default? true bool? allowRecursion
      maxDepth := ← default? 64 size? maxDepth }
  | _ => none

/-- Records by name. Of several of one name the last stands, but all of them have to be right. -/
def records? (kind : DocumentKind) : Node → Option (Std.ExtTreeMap String RecordSchema)
  | .mapping entries => do
    let definitions ← entries.mapM fun e => (record? kind e.2).map (e.1, ·)
    return definitions.foldl (fun records d => records.insert d.1 d.2) ∅
  | _ => none

def document? (kind : DocumentKind) (node : Node) : Option SchemaDocument := do
  match ← members? kind ["root", "options", "records"] node with
  | [some root, options, records] =>
    return {
      root := ← string? root
      options := ← default? {} (options? kind) options
      records := ← default? ∅ (records? kind) records }
  | _ => none

end SchemaReader

/-! ## Writing a document

All members are written, in the order of their declaration, and those that are absent as null. -/

namespace SchemaWriter

mutual

def type : FieldType → Json
  | .int => .string "int"
  | .float => .string "float"
  | .string => .string "string"
  | .bool => .string "bool"
  | .variadic => .string "..."
  | .list element => .object [("list", type element)]
  | .unknownList => .object [("list", .null)]
  | .tuple items => .object [("tuple", .array (types items))]
  | .literal value => .object [("literal", value.toJson)]
  | .union members => .object [("union", .array (types members))]
  | .record name => .object [("record", .string name)]

def types : List FieldType → List Json
  | [] => []
  | t :: rest => type t :: types rest

end

def format : FieldFormat → Json
  | .time mask => .object [("time", .string mask)]
  | .email => .string "email"

def field (f : Field) : Json :=
  .object [("name", .string f.name), ("type", type f.type), ("derived", .bool f.derived),
    ("format", f.format.elim .null format)]

def factory : BuiltinFactory → Json
  | .json => .string "json"

def record (r : RecordSchema) : Json :=
  .object [("fields", .array (r.fields.map field)), ("factory", r.factory.elim .null factory)]

def options (o : SchemaOptions) : Json :=
  .object [("prefix", .string o.stem), ("allow_recursion", .bool o.allowRecursion),
    ("max_depth", .number (.int o.maxDepth))]

end SchemaWriter

def SchemaDocument.toJson (document : SchemaDocument) : Json :=
  .object [("root", .string document.root), ("options", SchemaWriter.options document.options),
    ("records", .object (document.records.toList.map fun r => (r.1, SchemaWriter.record r.2)))]

end RecordGrammar
