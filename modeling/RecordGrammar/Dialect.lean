import RecordGrammar.RuleTable

/-! # Reading productions

A production is a row of alternatives divided by bars, and an alternative a row of symbols. -/

namespace RecordGrammar

inductive GrammarSymbol where
  | terminal (text : List Char)
  | rule (id : String)
  /-- One character that is no terminal of the rule on its own. -/
  | exceptRule (id : String)
  /-- One character outside a set. -/
  | exceptChars (chars : List Char)
  | any
  deriving DecidableEq, Repr

abbrev Alternatives := List (List GrammarSymbol)

namespace Dialect

/-- What a character stands for behind a backslash. -/
def unescape : Char → Char
  | 'n' => '\n'
  | 't' => '\t'
  | 'r' => '\r'
  | c => c

/-- The text of a terminal up to its first unescaped quote. -/
def readQuoted (quote : Char) : List Char → Option (List Char × List Char)
  | [] => none
  | '\\' :: c :: rest =>
    (readQuoted quote rest).map fun (text, after) => (unescape c :: text, after)
  | c :: rest =>
    if c = quote then some ([], rest)
    else if c = '\\' then none
    else (readQuoted quote rest).map fun (text, after) => (c :: text, after)

def expect : List Char → List Char → Option (List Char)
  | [], text => some text
  | c :: cs, d :: text => if c = d then expect cs text else none
  | _ :: _, [] => none

/-- The characters up to the first `stop`, with the text from there on. -/
def readUntil (stop : Char) : List Char → Option (List Char × List Char)
  | [] => none
  | c :: rest =>
    if c = stop then some ([], c :: rest)
    else (readUntil stop rest).map fun (text, after) => (c :: text, after)

/-- An exception, from behind its opening parenthesis. -/
def readExcept : List Char → Option (GrammarSymbol × List Char)
  | '[' :: rest => do
    let (id, after) ← readUntil ']' rest
    return (.exceptRule (String.ofList id), ← expect "])>".toList after)
  | quote :: rest =>
    if quote = '"' ∨ quote = '\'' then do
      let (chars, after) ← readQuoted quote rest
      return (.exceptChars chars, ← expect ")>".toList after)
    else none
  | [] => none

def readSymbol : List Char → Option (GrammarSymbol × List Char)
  | '<' :: rest =>
    match expect "any!>".toList rest, expect "except!(".toList rest with
    | some after, _ => some (.any, after)
    | none, some rest => readExcept rest
    | none, none => do
      let (id, after) ← readUntil '>' rest
      return (.rule (String.ofList id), ← expect ['>'] after)
  | quote :: rest =>
    if quote = '"' ∨ quote = '\'' then
      (readQuoted quote rest).map fun (text, after) => (.terminal text, after)
    else none
  | [] => none

/-- Every step takes a character at least, so the length of the text bounds the steps. -/
def readAlternatives : Nat → List Char → Option Alternatives
  | _, [] => some [[]]
  | 0, _ => none
  | fuel + 1, '|' :: rest => (readAlternatives fuel rest).map ([] :: ·)
  | fuel + 1, text => do
    let (symbol, rest) ← readSymbol text
    match ← readAlternatives fuel rest with
    | alternative :: others => return (symbol :: alternative) :: others
    | [] => none

end Dialect

/-- The alternatives of a production, if all of it can be read. -/
def readProduction (production : String) : Option Alternatives :=
  Dialect.readAlternatives production.toList.length production.toList

/-- The id and the alternatives of a line of grammar text. -/
def readRule (line : String) : Option (String × Alternatives) := do
  let rest ← Dialect.expect ['<'] line.toList
  let (id, rest) ← Dialect.readUntil '>' rest
  let production ← Dialect.expect ">::=".toList rest
  return (String.ofList id, ← readProduction (String.ofList production))

end RecordGrammar
