import RecordGrammar.JsonFragments
import RecordGrammar.FormatFragments
import RecordGrammar.Registry

/-! # Compiling records to grammars

The language of a record's rule is the canonical JSON text of its visible fields. A record that is
reached again while it is under construction stands for a forward rule, which is committed when the
construction ends. -/

namespace RecordGrammar

structure CompileState where
  session : Session
  /-- Forward rules that wait for their record to be finished. -/
  pending : List (String × Reservation) := []

/-- A compiling step. What it did to the table before a failure stays done. -/
abbrev Compile := EStateM SchemaError CompileState

def liftBuild {α : Type} (build : Build α) : Compile α := fun s =>
  match build s.session with
  | .ok a session => .ok a { s with session }
  | .error e session => .error (.rule e) { s with session }

/-- The outcome of a check that neither reads nor changes the state. -/
def require {α : Type} : Except SchemaError α → Compile α
  | .ok a => return a
  | .error e => throw e

/-- Where a compiling step stands. -/
structure CompileSite where
  registry : Registry
  options : SchemaOptions
  /-- The records under construction, the outermost first. -/
  stack : List String := []

namespace CompileSite

def scope (site : CompileSite) : Scope := ⟨site.options.stem⟩

/-- Reserves the forward rule of a record, unless an earlier compilation committed it. -/
def declareForward (name : String) : Compile RuleHandle := do
  let scope : Scope := ⟨← liftBuild (keyedStem "__bjr_" name)⟩
  if (← get).session.table.defined (scope.idOf "decl") then
    liftBuild (lookup (scope.idOf "decl"))
  else
    let slot ← liftBuild (scope.reserveNamed "decl")
    liftBuild (note (.warned (.forwardDeclared name slot.handle)))
    modify fun s => { s with pending := (name, slot) :: s.pending }
    return slot.handle

/-- The handle of a record that is under construction further out. -/
def forward (site : CompileSite) (name : String) : Compile RuleHandle := do
  if site.options.allowRecursion then
    match (← get).pending.lookup name with
    | some slot => return slot.handle
    | none => declareForward name
  else
    throw (.cycle (site.stack.dropWhile (· ≠ name) ++ [name]))

/-- Commits the forward rule of a finished record, if one waits for it. -/
def close (name : String) (rule : RuleHandle) : Compile Unit := do
  match (← get).pending.lookup name with
  | some slot =>
    modify fun s => { s with pending := s.pending.filter (·.1 ≠ name) }
    let _ ← liftBuild (commit slot rule.text)
  | none => return ()

/-- Builds the rule of a record, unless the record is already under construction. -/
def record (site : CompileSite) (name : String)
    (build : CompileSite → RecordSchema → Compile RuleHandle) : Compile RuleHandle := do
  if name ∈ site.stack then
    site.forward name
  else
    let definition ← require (site.registry.record name)
    let rule ← build { site with stack := site.stack ++ [name] } definition
    close name rule
    return rule

end CompileSite

/-- Compiles a type inside the record that its factory was asked for. -/
abbrev TypeCompiler := CompileSite → String → FieldType → Compile RuleHandle

/-- The compilers of the level at hand and of the one below it. -/
structure Levels where
  here : TypeCompiler
  below : Option TypeCompiler

namespace RecordCompiler

def enumeration (literals : List Literal) : Compile RuleHandle := liftBuild do
  JsonFragment.enumeration (← literals.mapM fun l => emitTerminal l.text)

def field (fieldType : TypeCompiler) (site : CompileSite) (root : String) (field : Field) :
    Compile RuleHandle := do
  require field.checkOverride
  match field.format with
  | some (.time mask) => liftBuild do JsonFragment.inQuotes (← FormatFragment.maskedTime mask)
  | some .email => liftBuild do JsonFragment.inQuotes (← FormatFragment.mailAddress)
  | none => fieldType site root field.type

/-- A record as a JSON object. -/
def object (fieldType : TypeCompiler) (site : CompileSite) (root name : String) :
    Compile RuleHandle :=
  site.record name fun site definition => do
    let fields ← definition.visibleFields.mapM fun f => do
      let rule ← field fieldType site root f
      return (f.name, rule)
    liftBuild (JsonFragment.object fields)

/-- A record by its factory. -/
def delegate (levels : Levels) (site : CompileSite) (name : String) : Factory → Compile RuleHandle
  | .json => object levels.here site name name
  | .fixed => liftBuild (memoized ("fixed_" ++ name) fun _ => return terminal "x")
  | .nullable => do
    let inner ← match levels.below with
      | some below => object below site name name
      | none => throw (.depthExceeded site.options.maxDepth)
    liftBuild <| memoized ("nullable_" ++ name) fun _ => do
      let null ← JsonFragment.null
      return alternation [inner.text, null.text]
  | .masked mask => liftBuild do JsonFragment.inQuotes (← FormatFragment.maskedTime mask)
  | .boxed other => site.record name fun site _ => do
    let inner ← object levels.here site other other
    liftBuild (JsonFragment.tuple [inner])
  | .plain => liftBuild do
    site.scope.define (← emitTerminal (name ++ "@" ++ toString site.options.maxDepth))

/-- A field of a record type is delegated to the factory of that record, unless it is the record
that the factory at work was asked for. -/
def recordField (levels : Levels) (site : CompileSite) (root name : String) : Compile RuleHandle :=
  match if name = root then none else site.registry.factory? name with
  | some factory => delegate levels site name factory
  | none => object levels.here site root name

/-- One level of a type, its parts being left to the compiler of that level. -/
def typeLevel (levels : Levels) : TypeCompiler := fun site root type =>
  match type with
  | .int | .float => liftBuild JsonFragment.number
  | .string => liftBuild JsonFragment.string
  | .bool => liftBuild JsonFragment.boolean
  | .variadic => throw (.notARecord type)
  | .unknownList => throw .unresolvedListElement
  | .list element => do
    let inner ← levels.here site root element
    liftBuild (JsonFragment.array inner)
  | .tuple items => do
    require (checkTuple items)
    let rules ← items.mapM (levels.here site root)
    liftBuild (JsonFragment.tuple rules)
  | .literal value => enumeration [value]
  | .union members => do
    enumeration (← require (unionLiterals members))
  | .record name => recordField levels site root name

/-- Compiles a type that may nest as many levels deep as are left. -/
def type : Nat → TypeCompiler
  | 0, site, _, _ => throw (.depthExceeded site.options.maxDepth)
  | left + 1, site, root, ty =>
    typeLevel ⟨type left, match left with
      | 0 => none
      | deeper + 1 => some (type deeper)⟩ site root ty

def levels (left : Nat) : Levels :=
  ⟨type left, match left with
    | 0 => none
    | deeper + 1 => some (type deeper)⟩

theorem type_succ (left : Nat) (site : CompileSite) (root : String) (ty : FieldType) :
    type (left + 1) site root ty = typeLevel (levels left) site root ty := by
  cases left <;> rfl

end RecordCompiler

open RecordCompiler in
/-- Compiles a record into the session's table, which keeps what it already holds. -/
def compileRecord (registry : Registry) (root : String) (options : SchemaOptions) :
    Compile RuleHandle := do
  let _ ← require (registry.record root)
  delegate (levels options.maxDepth) ⟨registry, options, []⟩ root (registry.factoryOrJson root)

/-- Compiles a record into the table of a session. -/
def Session.compile (s : Session) (registry : Registry) (root : String) (options : SchemaOptions) :
    Except SchemaError RuleHandle × Session :=
  match compileRecord registry root options { session := s } with
  | .ok rule s => (.ok rule, s.session)
  | .error e s => (.error e, s.session)

/-- A grammar on its own: the id of its start rule, and its text. -/
structure Grammar where
  start : String
  text : String
  deriving DecidableEq, Repr

/-- Compiles a record into an empty table. The log is that of the run, whether it fails or not. -/
def compileFresh (registry : Registry) (root : String) (options : SchemaOptions) :
    Except SchemaError Grammar × List Event :=
  let (result, s) := Session.compile {} registry root options
  (result.map fun start => ⟨start.id, s.table.text⟩, s.log)

end RecordGrammar
