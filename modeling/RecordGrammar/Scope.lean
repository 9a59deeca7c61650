import RecordGrammar.BuildSession

/-! # Naming scopes over a shared table -/

namespace RecordGrammar

/-- Every id that a scope creates starts with its stem and an underscore. -/
structure Scope where
  stem : String
  deriving DecidableEq, Repr

/-- An id claimed ahead of its production, which may refer to itself through it. -/
structure Reservation where
  id : String
  deriving DecidableEq, Repr

def Reservation.handle (r : Reservation) : RuleHandle := ⟨r.id⟩

def Reservation.text (r : Reservation) : String := r.handle.text

def commit (r : Reservation) (production : String) : Build RuleHandle := do
  edit (·.commit r.id production)
  return r.handle

/-- The handle of a committed rule. -/
def lookup (id : String) : Build RuleHandle := do
  match (← get).table.rule id with
  | .ok rule => return rule.handle
  | .error e => throw e

namespace Scope

def idOf (scope : Scope) (name : String) : String := scope.stem ++ "_" ++ name

def freshId (scope : Scope) : Build String := modifyGet fun s =>
  let (id, table) := s.table.freshId scope.stem
  (id, { s with table })

/-- A new rule under the next automatic id, which is used up even if the production is refused. -/
def define (scope : Scope) (production : String) : Build RuleHandle := do
  let id ← scope.freshId
  edit (·.insert id production)
  return ⟨id⟩

def defineNamed (scope : Scope) (name production : String) : Build RuleHandle := do
  edit (·.insert (scope.idOf name) production)
  return ⟨scope.idOf name⟩

def reserve (scope : Scope) : Build Reservation := do
  let id ← scope.freshId
  modify fun s => { s with table := { s.table with reserved := s.table.reserved.insert id } }
  return ⟨id⟩

def reserveNamed (scope : Scope) (name : String) : Build Reservation := do
  edit (·.reserve (scope.idOf name))
  return ⟨scope.idOf name⟩

/-- One or more elements: the element, or the element followed by this very rule. -/
def oneOrMore (scope : Scope) (element : String) : Build RuleHandle := do
  let this ← scope.reserve
  commit this (optionalTail element this.text)

end Scope

/-- A memoized fragment: the rule `decl` of the stem's scope, built only if it is not yet there. -/
def memoized (stem : String) (build : Scope → Build String) : Build RuleHandle := do
  let scope : Scope := ⟨stem⟩
  if (← get).table.defined (scope.idOf "decl") then
    return ⟨scope.idOf "decl"⟩
  else
    let production ← build scope
    scope.defineNamed "decl" production

end RecordGrammar
