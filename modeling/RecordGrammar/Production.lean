/-! # Production text: terminals, references and the ways to combine them -/

namespace RecordGrammar

/-- A handle to a rule, written as the nonterminal it names. -/
structure RuleHandle where
  id : String
  deriving DecidableEq, Repr

def RuleHandle.text (r : RuleHandle) : String := "<" ++ r.id ++ ">"

structure Rule where
  id : String
  production : String
  deriving DecidableEq, Repr

def Rule.handle (r : Rule) : RuleHandle := ⟨r.id⟩

def Rule.line (r : Rule) : String := r.handle.text ++ "::=" ++ r.production

/-- A piece of a production: a handle to a rule, or text taken as it stands. -/
inductive Part where
  | rule (handle : RuleHandle)
  | text (production : String)
  deriving DecidableEq, Repr

def Part.render : Part → String
  | .rule handle => handle.text
  | .text production => production

/-- Inside a terminal a newline, a tab, a carriage return and a backslash take two characters. -/
def escapeChar : Char → List Char
  | '\n' => ['\\', 'n']
  | '\t' => ['\\', 't']
  | '\\' => ['\\', '\\']
  | '\r' => ['\\', 'r']
  | c => [c]

def escape (raw : String) : String := String.ofList (raw.toList.flatMap escapeChar)

/-- A quoted terminal. Double quotes unless the text holds one, and then single quotes. -/
def terminal (raw : String) : String :=
  let quote := if '"' ∈ raw.toList then "'" else "\""
  quote ++ escape raw ++ quote

/-- A text with both quotes has no faithful terminal: a quote of its own ends it early. -/
def holdsBothQuotes (raw : String) : Bool :=
  decide ('"' ∈ raw.toList) && decide ('\'' ∈ raw.toList)

/-- Alternation of productions. -/
def alternation (alternatives : List String) : String := "|".intercalate alternatives

/-- Concatenation of productions. -/
def concatenation (parts : List String) : String := String.join parts

/-- The base, with or without the tail behind it. -/
def optionalTail (base tail : String) : String := alternation [base, base ++ tail]

/-- The base, with or without the head before it. -/
def optionalHead (head base : String) : String := alternation [head ++ base, base]

/-- The nine digits from one on. -/
def nonzeroDigits : List String := ["1", "2", "3", "4", "5", "6", "7", "8", "9"]

def decimalDigits : List String := "0" :: nonzeroDigits

/-- One unit that the part does not match. -/
def exceptUnit : Part → String
  | .rule handle => "<except!([" ++ handle.id ++ "])>"
  | .text production => "<except!(" ++ production ++ ")>"

/-- One unit whatever it is. -/
def anyUnit : String := "<any!>"

end RecordGrammar
