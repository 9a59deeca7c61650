import RecordGrammar.Scope
import RecordGrammar.JsonString

/-! # Grammar fragments for JSON values

Scalars are singletons of a table. A container is keyed by the handles it is built from, and has one
layout: a comma and a space between items, a colon and a space after a key. -/

namespace RecordGrammar.JsonFragment

def null : Build RuleHandle := memoized "__bjn" fun _ => return terminal "null"

def number : Build RuleHandle := memoized "__bjnu" fun scope => do
  let exponentMark ← scope.define (alternation [terminal "e", terminal "E"])
  let nonzero ← scope.define (alternation (nonzeroDigits.map terminal))
  let sign ← scope.define (alternation [terminal "+", terminal "-"])
  let digit ← scope.define (alternation [terminal "0", nonzero.text])
  let digits ← scope.oneOrMore digit.text
  let integer ← scope.define (alternation [digit.text, concatenation [nonzero.text, digits.text]])
  let signed ← scope.define (alternation [integer.text, concatenation [sign.text, integer.text]])
  let exponent ← scope.define (alternation [concatenation [exponentMark.text, digits.text],
    concatenation [exponentMark.text, sign.text, digits.text]])
  let fraction ← scope.define (concatenation [terminal ".", digits.text])
  return alternation [signed.text, concatenation [signed.text, exponent.text],
    concatenation [signed.text, fraction.text],
    concatenation [signed.text, fraction.text, exponent.text]]

def hexDigits : List Char := "0123456789ABCDEFabcdef".toList

def escapeLetters : List Char := ['/', 'b', 'f', 'n', 'r', 't', '\\', '"']

/-- The characters that a JSON string does not hold unescaped. -/
def forbiddenInString : List String := ["\n", "\t", "\r", "\"", "\\"]

def string : Build RuleHandle := memoized "__bjs" fun scope => do
  let hexDigit ← scope.define (alternation (hexDigits.map (terminal ·.toString)))
  let codeUnit ← scope.define (concatenation (List.replicate 4 hexDigit.text))
  let escapes ← scope.define (alternation
    (escapeLetters.map (terminal ·.toString) ++ [concatenation [terminal "u", codeUnit.text]]))
  let escaped ← scope.define (concatenation [terminal "\\", escapes.text])
  let forbidden ← scope.define (alternation (forbiddenInString.map terminal))
  let unescaped ← scope.define (exceptUnit (.rule forbidden))
  let character ← scope.define (alternation [escaped.text, unescaped.text])
  let characters ← scope.oneOrMore character.text
  return alternation
    [concatenation [terminal "\"", characters.text, terminal "\""], terminal "\"\""]

def boolean : Build RuleHandle :=
  memoized "__bjb" fun _ => return alternation [terminal "true", terminal "false"]

/-- Any number of `inner`s in brackets. -/
def array (inner : RuleHandle) : Build RuleHandle := do
  let stem ← keyedStem "__bja_" inner.text
  memoized stem fun scope => do
    let trail ← scope.oneOrMore (concatenation [terminal ", ", inner.text])
    return alternation [terminal "[]", concatenation [terminal "[", inner.text, terminal "]"],
      concatenation [terminal "[", inner.text, trail.text, terminal "]"]]

/-- Exactly the given items in brackets. -/
def tuple (members : List RuleHandle) : Build RuleHandle := do
  let stem ← keyedStem "__bji_" ("[".intercalate (members.map RuleHandle.text))
  memoized stem fun _ =>
    return concatenation
      [terminal "[", (terminal ", ").intercalate (members.map RuleHandle.text), terminal "]"]

/-- One of a closed set of alternatives, each of them production text. -/
def enumeration (members : List String) : Build RuleHandle := do
  let stem ← keyedStem "__bje_" (alternation members)
  memoized stem fun _ => return alternation members

/-- The terminal of a key, with the separators on both of its sides. It is single-quoted, since it
holds the quoted key, and an apostrophe in the key is escaped. -/
def keyTerminal (name : String) (first : Bool) : String :=
  let key := (escape (jsonString name)).toList.flatMap fun c =>
    if c = '\'' then ['\\', '\''] else [c]
  "'" ++ (if first then "" else ", ") ++ String.ofList key ++ ": '"

def objectMembers : Bool → List (String × RuleHandle) → List String
  | _, [] => []
  | first, (name, value) :: rest =>
    keyTerminal name first :: value.text :: objectMembers false rest

/-- Exactly the given keys, in their order. -/
def object (fields : List (String × RuleHandle)) : Build RuleHandle := do
  let stem ← keyedStem "__bjo_" (",".intercalate (fields.map fun f => f.1 ++ f.2.text))
  memoized stem fun _ =>
    return concatenation ([terminal "\x7b"] ++ objectMembers true fields ++ [terminal "\x7d"])

/-- `inner` between the quotes of a JSON string. -/
def inQuotes (inner : RuleHandle) : Build RuleHandle := do
  let stem ← keyedStem "__bjq_" inner.text
  memoized stem fun _ => return concatenation [terminal "\"", inner.text, terminal "\""]

end RecordGrammar.JsonFragment
