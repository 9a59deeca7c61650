import RecordGrammar.MarkdownFragments
import RecordGrammar.ProductionExpression
import RecordGrammar.RecordCompiler

/-! # A workbench of two tables, on which building operations are run one by one -/

namespace RecordGrammar

inductive Operation where
  | define (production : Expression)
  | defineNamed (name : String) (production : Expression)
  | oneOrMore (element : Expression)
  | reserve (slot : String)
  | reserveNamed (slot name : String)
  | commit (slot : String) (production : Expression)
  | fragment (stem : String) (definitions : List Definition) (production : Expression)
  | get (id : String)
  | defined (id : String)
  | scopeStem
  | tableText
  | isEmpty
  | null
  | number
  | string
  | boolean
  | array (inner : Expression)
  | inQuotes (inner : Expression)
  | tuple (members : List Expression)
  | enumeration (members : List Expression)
  | object (fields : List (String × Expression))
  | line
  | paragraph
  | lineWithLead (lead : Option Expression)
  | heading (level : Nat) (lead : Option Expression)
  | listItem (bullet : MarkdownFragment.Bullet) (lead : Option Expression)
  | bulletList (bullet : MarkdownFragment.Bullet) (count : Nat)
  | numberedList (count : Nat)
  | entryList (entries : List (Option Expression × Option Expression))
      (style : MarkdownFragment.ListStyle)
  | maskedTime (mask : String)
  | mailAddress
  deriving Repr

inductive Outcome where
  | handle (rule : RuleHandle)
  | reservation (slot : Reservation)
  | rule (rule : Rule)
  | flag (b : Bool)
  | text (s : String)
  deriving DecidableEq, Repr

inductive Side where
  | first
  | second
  deriving DecidableEq, Repr

/-- The slots name open reservations and are shared by the tables. -/
structure Workbench where
  first : RuleTable := {}
  second : RuleTable := {}
  slots : List (String × Reservation) := []
  log : List Event := []

def renderOptional (bindings : Bindings) : Option Expression → Build (Option String)
  | none => return none
  | some e => do
    let text ← e.render bindings
    return some text

/-- What an operation works on: one table with the log, and the open slots. -/
structure WorkState where
  session : Session
  slots : List (String × Reservation)

/-- A step of an operation. What it did before a failure stays done. -/
abbrev Work := EStateM RuleError WorkState

namespace Work

def ofBuild {α : Type} (build : Build α) : Work α := fun s =>
  match build s.session with
  | .ok a session => .ok a { s with session }
  | .error e session => .error e { s with session }

/-- A building step that may refer to the open slots. -/
def bound {α : Type} (build : Bindings → Build α) : Work α := do
  ofBuild (build ⟨(← get).slots, []⟩)

/-- A step that ends in a rule. -/
def rule (build : Bindings → Build RuleHandle) : Work Outcome := do
  let rule ← bound build
  return .handle rule

def openSlot (name : String) (reserve : Build Reservation) : Work Outcome := do
  let reservation ← ofBuild reserve
  modify fun s => { s with slots := (name, reservation) :: s.slots }
  return .reservation reservation

/-- Takes the reservation out of a slot, which is no longer open. -/
def takeSlot (name : String) : Work Reservation := do
  match (← get).slots.lookup name with
  | some reservation =>
    modify fun s => { s with slots := s.slots.filter (·.1 ≠ name) }
    return reservation
  | none => throw (.notReserved name)

def table : Work RuleTable := return (← get).session.table

end Work

namespace Operation

def listEntry (bindings : Bindings) (entry : Option Expression × Option Expression) :
    Build MarkdownFragment.ListEntry := do
  let lead ← renderOptional bindings entry.1
  let body ← renderOptional bindings entry.2
  return ⟨lead, body⟩

/-- A commit uses its slot up as soon as its production is there, even if the table refuses it. -/
def run (scope : Scope) : Operation → Work Outcome
  | .define production => Work.rule fun b => do scope.define (← production.render b)
  | .defineNamed name production => Work.rule fun b => do
    scope.defineNamed name (← production.render b)
  | .oneOrMore element => Work.rule fun b => do scope.oneOrMore (← element.render b)
  | .reserve slot => Work.openSlot slot scope.reserve
  | .reserveNamed slot name => Work.openSlot slot (scope.reserveNamed name)
  | .commit slot production => do
    let production ← Work.bound production.render
    let reservation ← Work.takeSlot slot
    Work.rule fun _ => RecordGrammar.commit reservation production
  | .fragment stem definitions production => Work.rule fun b =>
    (Definition.fragment stem definitions production).build b.slots scope []
  | .get id => do
    match (← Work.table).rule id with
    | .ok rule => return .rule rule
    | .error e => throw e
  | .defined id => return .flag ((← Work.table).defined id)
  | .scopeStem => return .text scope.stem
  | .tableText => return .text (← Work.table).text
  | .isEmpty => return .flag ((← Work.table).size == 0)
  | .null => Work.rule fun _ => JsonFragment.null
  | .number => Work.rule fun _ => JsonFragment.number
  | .string => Work.rule fun _ => JsonFragment.string
  | .boolean => Work.rule fun _ => JsonFragment.boolean
  | .array inner => Work.rule fun b => do JsonFragment.array (← inner.handle b)
  | .inQuotes inner => Work.rule fun b => do JsonFragment.inQuotes (← inner.handle b)
  | .tuple members => Work.rule fun b => do JsonFragment.tuple (← members.mapM (·.handle b))
  | .enumeration members => Work.rule fun b => do
    JsonFragment.enumeration (← members.mapM (·.render b))
  | .object fields => Work.rule fun b => do
    JsonFragment.object (← fields.mapM fun f => return (f.1, ← f.2.handle b))
  | .line => Work.rule fun _ => MarkdownFragment.line
  | .paragraph => Work.rule fun _ => MarkdownFragment.paragraph
  | .lineWithLead lead => Work.rule fun b => do
    MarkdownFragment.lineWithLead (← renderOptional b lead)
  | .heading level lead => Work.rule fun b => do
    MarkdownFragment.heading level (← renderOptional b lead)
  | .listItem bullet lead => Work.rule fun b => do
    MarkdownFragment.listItem bullet (← renderOptional b lead)
  | .bulletList bullet count => Work.rule fun _ => MarkdownFragment.bulletList bullet count
  | .numberedList count => Work.rule fun _ => MarkdownFragment.numberedList count
  | .entryList entries style => Work.rule fun b => do
    MarkdownFragment.entryList (← entries.mapM (listEntry b)) style
  | .maskedTime mask => Work.rule fun _ => FormatFragment.maskedTime mask
  | .mailAddress => Work.rule fun _ => FormatFragment.mailAddress

end Operation

namespace Workbench

def table (bench : Workbench) : Side → RuleTable
  | .first => bench.first
  | .second => bench.second

def withTable (bench : Workbench) (table : RuleTable) : Side → Workbench
  | .first => { bench with first := table }
  | .second => { bench with second := table }

def session (bench : Workbench) (side : Side) : Session := ⟨bench.table side, bench.log⟩

def withSession (bench : Workbench) (s : Session) (side : Side) : Workbench :=
  { bench with log := s.log }.withTable s.table side

/-- Runs an operation on one of the tables. What a failing one did to the table stays done. -/
def perform (bench : Workbench) (side : Side) (scope : Scope) (operation : Operation) :
    Except RuleError Outcome × Workbench :=
  match operation.run scope ⟨bench.session side, bench.slots⟩ with
  | .ok outcome s => (.ok outcome, { bench with slots := s.slots }.withSession s.session side)
  | .error e s => (.error e, { bench with slots := s.slots }.withSession s.session side)

/-- Compiles a record into one of the tables. -/
def compile (bench : Workbench) (side : Side) (registry : Registry) (root : String)
    (options : SchemaOptions) : Except SchemaError RuleHandle × Workbench :=
  let (result, s) := (bench.session side).compile registry root options
  (result, bench.withSession s side)

end Workbench

end RecordGrammar
