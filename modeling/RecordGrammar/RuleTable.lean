import RecordGrammar.Production
import Std.Data.TreeMap
import Std.Data.TreeSet

/-! # The table of productions: committed rules, reserved ids and the counters of automatic ids -/

namespace RecordGrammar

inductive RuleError where
  | notFound (id : String)
  | redefined (id : String)
  | notReserved (id : String)
  | emptyProduction (id : String)
  deriving DecidableEq, Repr

def RuleError.message : RuleError → String
  | .notFound id => "rule <" ++ id ++ "> is not defined"
  | .redefined id => "rule <" ++ id ++ "> is already defined"
  | .notReserved id => "rule <" ++ id ++ "> was never reserved"
  | .emptyProduction id => "rule <" ++ id ++ "> has an empty production"

/-- Rules stand in the order of their commitment, and a committed rule is never replaced. -/
structure RuleTable where
  rules : Array Rule := #[]
  index : Std.TreeMap String Nat := ∅
  reserved : Std.TreeSet String := ∅
  counters : Std.TreeMap String Nat := ∅

namespace RuleTable

def defined (t : RuleTable) (id : String) : Bool := t.index.contains id

def taken (t : RuleTable) (id : String) : Bool := t.defined id || t.reserved.contains id

def rule? (t : RuleTable) (id : String) : Option Rule :=
  (t.index.get? id).bind fun i => t.rules[i]?

def rule (t : RuleTable) (id : String) : Except RuleError Rule :=
  (t.rule? id).elim (.error (.notFound id)) .ok

def size (t : RuleTable) : Nat := t.rules.size

/-- The grammar text, one production a line. -/
def text (t : RuleTable) : String := "\n".intercalate (t.rules.toList.map Rule.line)

def push (t : RuleTable) (id production : String) : RuleTable :=
  { t with rules := t.rules.push ⟨id, production⟩, index := t.index.insert id t.rules.size }

/-- Commits a rule under an id that nothing has taken. -/
def insert (t : RuleTable) (id production : String) : Except RuleError RuleTable :=
  if t.taken id then .error (.redefined id)
  else if production = "" then .error (.emptyProduction id)
  else .ok (t.push id production)

/-- Claims an id ahead of its production. -/
def reserve (t : RuleTable) (id : String) : Except RuleError RuleTable :=
  if t.taken id then .error (.redefined id)
  else .ok { t with reserved := t.reserved.insert id }

/-- Gives a reserved id its production. An empty production leaves the id reserved. -/
def commit (t : RuleTable) (id production : String) : Except RuleError RuleTable :=
  if !t.reserved.contains id then .error (.notReserved id)
  else if production = "" then .error (.emptyProduction id)
  else .ok ({ t with reserved := t.reserved.erase id }.push id production)

def autoId (stem : String) (n : Nat) : String := stem ++ "_" ++ toString n

/-- The first number from `n` on whose id is free, looking at most `rounds` times. -/
def firstFree (t : RuleTable) (stem : String) : Nat → Nat → Nat
  | 0, n => n
  | rounds + 1, n => if t.taken (autoId stem n) then firstFree t stem rounds (n + 1) else n

/-- The next automatic id of a stem. Each round meets another taken id, so one round more than
there are taken ids is enough. -/
def freshId (t : RuleTable) (stem : String) : String × RuleTable :=
  let n := t.firstFree stem (t.size + t.reserved.size + 1) (t.counters.getD stem 0)
  (autoId stem n, { t with counters := t.counters.insert stem (n + 1) })

end RuleTable

end RecordGrammar
