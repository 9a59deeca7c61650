import RecordGrammar.RuleTable
import RecordGrammar.Sha256

/-! # Building a grammar: steps that read and change a table and keep a log -/

namespace RecordGrammar

inductive Warning where
  | ambiguousTerminal (raw : String)
  | forwardDeclared (record : String) (rule : RuleHandle)
  deriving DecidableEq, Repr

def Warning.message : Warning → String
  | .ambiguousTerminal _ => "literal contains both quote characters; rendered unescaped"
  | .forwardDeclared _ _ => "recursive record, forward-declaring"

/-- What a session logs: its warnings, and every text it has turned into a memo key. -/
inductive Event where
  | warned (warning : Warning)
  | keyed (canonical : String)
  deriving DecidableEq, Repr

def Event.warning? : Event → Option Warning
  | .warned warning => some warning
  | .keyed _ => none

def warningsOf (log : List Event) : List Warning := log.filterMap Event.warning?

structure Session where
  table : RuleTable := {}
  log : List Event := []

/-- A building step. What it did to the session before a failure stays done. -/
abbrev Build := EStateM RuleError Session

def note (event : Event) : Build Unit := modify fun s => { s with log := s.log ++ [event] }

/-- Replaces the table, or fails and leaves it as it is. -/
def edit (change : RuleTable → Except RuleError RuleTable) : Build Unit := do
  match change (← get).table with
  | .ok table => modify fun s => { s with table }
  | .error e => throw e

/-- The terminal of a text from outside, with a warning if it cannot be read back. -/
def emitTerminal (raw : String) : Build String := do
  if holdsBothQuotes raw then note (.warned (.ambiguousTerminal raw))
  return terminal raw

/-- A stem followed by the memo key of a canonical text. -/
def keyedStem (stem canonical : String) : Build String := do
  note (.keyed canonical)
  return stem ++ memoKey canonical

end RecordGrammar
