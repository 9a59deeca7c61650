import RecordGrammar.Scope
import RecordGrammar.RecordSchema

/-! # Expressions for production text -/

namespace RecordGrammar

/-- What stands for a rule is the id of a committed one, the name of a reservation, or the number
of an earlier definition in the same fragment. -/
inductive Expression where
  | text (production : String)
  | literal (value : Literal)
  | alternation (parts : List Expression)
  | concatenation (parts : List Expression)
  | optionalTail (base tail : Expression)
  | optionalHead (head base : Expression)
  | exceptUnit (part : Expression)
  | anyUnit
  | committed (id : String)
  | slot (name : String)
  | definition (i : Nat)
  deriving Repr

/-- The text of a literal without quotes. -/
def Literal.raw : Literal → String
  | .bool b => if b then "true" else "false"
  | .int n => toString n.toInt
  | .string s => s

/-- The rules that expressions refer to by other names than their ids. -/
structure Bindings where
  slots : List (String × Reservation) := []
  definitions : List RuleHandle := []
  deriving Repr

namespace Expression

mutual

/-- Evaluates parts from left to right. The first one that fails ends it. -/
def evaluate (bindings : Bindings) : Expression → Build Part
  | .text production => return .text production
  | .literal value => do
    let terminal ← emitTerminal value.raw
    return .text terminal
  | .alternation parts => do
    let parts ← renderAll bindings parts
    return .text (RecordGrammar.alternation parts)
  | .concatenation parts => do
    let parts ← renderAll bindings parts
    return .text (RecordGrammar.concatenation parts)
  | .optionalTail base tail => do
    let base ← evaluate bindings base
    let tail ← evaluate bindings tail
    return .text (RecordGrammar.optionalTail base.render tail.render)
  | .optionalHead head base => do
    let head ← evaluate bindings head
    let base ← evaluate bindings base
    return .text (RecordGrammar.optionalHead head.render base.render)
  | .exceptUnit part => do
    let part ← evaluate bindings part
    return .text (RecordGrammar.exceptUnit part)
  | .anyUnit => return .text RecordGrammar.anyUnit
  | .committed id => do
    let rule ← lookup id
    return .rule rule
  | .slot name =>
    match bindings.slots.lookup name with
    | some reservation => return .rule reservation.handle
    | none => throw (.notReserved name)
  | .definition i =>
    match bindings.definitions[i]? with
    | some rule => return .rule rule
    | none => throw (.notFound (toString i))

def renderAll (bindings : Bindings) : List Expression → Build (List String)
  | [] => return []
  | part :: rest => do
    let part ← evaluate bindings part
    let rest ← renderAll bindings rest
    return part.render :: rest

end

def render (bindings : Bindings) (e : Expression) : Build String := do
  let part ← e.evaluate bindings
  return part.render

/-- The rule that an expression denotes. A text is taken for the id of one. -/
def handle (bindings : Bindings) (e : Expression) : Build RuleHandle := do
  match ← e.evaluate bindings with
  | .rule handle => return handle
  | .text id => return ⟨id⟩

end Expression

/-- A rule that a fragment defines on the way to its production. -/
inductive Definition where
  | define (production : Expression)
  | oneOrMore (element : Expression)
  | fragment (stem : String) (definitions : List Definition) (production : Expression)
  deriving Repr

namespace Definition

mutual

def build (slots : List (String × Reservation)) (scope : Scope) (earlier : List RuleHandle) :
    Definition → Build RuleHandle
  | .define production => do
    let production ← production.render ⟨slots, earlier⟩
    scope.define production
  | .oneOrMore element => do
    let element ← element.render ⟨slots, earlier⟩
    scope.oneOrMore element
  | .fragment stem definitions production => memoized stem fun scope => do
    let rules ← buildAll slots scope [] definitions
    production.render ⟨slots, rules⟩

/-- Builds definitions in their order, each seeing those before it. -/
def buildAll (slots : List (String × Reservation)) (scope : Scope) (earlier : List RuleHandle) :
    List Definition → Build (List RuleHandle)
  | [] => return earlier
  | d :: rest => do
    let rule ← d.build slots scope earlier
    buildAll slots scope (earlier ++ [rule]) rest

end

end Definition

end RecordGrammar
