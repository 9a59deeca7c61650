import RecordGrammar.DocumentNode
import RecordGrammar.JsonNumberReader

/-! # Reading JSON text -/

namespace RecordGrammar.JsonReader

def isSpace (c : Char) : Bool := c == ' ' || c == '\n' || c == '\t' || c == '\r'

def skipSpace (text : List Char) : List Char := text.dropWhile isSpace

/-- A string holds characters and escaped units of sixteen bits. -/
inductive StringUnit where
  | char (c : Char)
  | code (unit : Nat)
  deriving DecidableEq, Repr

def escaped? : Char → Option Char
  | '"' => some '"'
  | '\\' => some '\\'
  | '/' => some '/'
  | 'b' => some '\x08'
  | 'f' => some '\x0c'
  | 'n' => some '\n'
  | 'r' => some '\r'
  | 't' => some '\t'
  | _ => none

/-- The units of a string up to its closing quote. -/
def readUnits : List Char → Option (List StringUnit × List Char)
  | [] => none
  | '"' :: rest => some ([], rest)
  | '\\' :: 'u' :: a :: b :: c :: d :: rest => do
    let unit ← hexNumber? [a, b, c, d]
    let (units, after) ← readUnits rest
    return (.code unit :: units, after)
  | '\\' :: c :: rest => do
    let char ← escaped? c
    let (units, after) ← readUnits rest
    return (.char char :: units, after)
  | c :: rest =>
    if c < ' ' ∨ c = '\\' then none
    else do
      let (units, after) ← readUnits rest
      return (.char c :: units, after)

def isLeading (unit : Nat) : Bool := 0xd800 ≤ unit && unit < 0xdc00

def isTrailing (unit : Nat) : Bool := 0xdc00 ≤ unit && unit < 0xe000

/-- A leading and a trailing surrogate make one character. None if one stands alone. -/
def characters : List StringUnit → Option (List Char)
  | [] => some []
  | .char c :: rest => (characters rest).map (c :: ·)
  | .code high :: .code low :: rest =>
    if isLeading high then
      if isTrailing low then
        let code := 0x10000 + (high - 0xd800) * 0x400 + (low - 0xdc00)
        (characters rest).map (Char.ofNat code :: ·)
      else none
    else if isTrailing high then none
    else (characters (.code low :: rest)).map (Char.ofNat high :: ·)
  | .code unit :: rest =>
    if isLeading unit || isTrailing unit then none
    else (characters rest).map (Char.ofNat unit :: ·)

def stringOf (units : List StringUnit) : Option String := (characters units).map String.ofList

/-- A mapping, unless one of its keys is unreadable. -/
def mappingOf (members : List (Option String × Node)) : Node :=
  match members.mapM fun m => m.1.map (·, m.2) with
  | some entries => .mapping entries
  | none => .unreadable

mutual

/-- Reads one value at the start of the text. `levels` is how many brackets may still be opened
for the value inside them to be readable. -/
def readValue : Nat → Nat → List Char → Option (Node × List Char)
  | 0, _, _ => none
  | _ + 1, _, 'n' :: 'u' :: 'l' :: 'l' :: rest => some (.null, rest)
  | _ + 1, _, 't' :: 'r' :: 'u' :: 'e' :: rest => some (.bool true, rest)
  | _ + 1, _, 'f' :: 'a' :: 'l' :: 's' :: 'e' :: rest => some (.bool false, rest)
  | _ + 1, _, '"' :: rest => do
    let (units, after) ← readUnits rest
    return ((stringOf units).elim .unreadable .string, after)
  | fuel + 1, levels, '[' :: rest => do
    let (items, after) ← match skipSpace rest with
      | ']' :: after => some ([], after)
      | text => readItems fuel (levels - 1) text
    return (if levels = 0 then .unreadable else .sequence items, after)
  | fuel + 1, levels, '\x7b' :: rest => do
    let (members, after) ← match skipSpace rest with
      | '\x7d' :: after => some ([], after)
      | text => readMembers fuel (levels - 1) text
    return (if levels = 0 then .unreadable else mappingOf members, after)
  | _ + 1, _, text => do
    let (numeral, after) ← Numeral.read text
    return (numeral.value.elim .unreadable .ofNumber, after)

/-- Items divided by commas, up to the closing bracket. -/
def readItems : Nat → Nat → List Char → Option (List Node × List Char)
  | 0, _, _ => none
  | fuel + 1, levels, text => do
    let (item, after) ← readValue fuel levels (skipSpace text)
    match skipSpace after with
    | ',' :: rest =>
      let (items, after) ← readItems fuel levels rest
      return (item :: items, after)
    | ']' :: rest => return ([item], rest)
    | _ => none

/-- Members divided by commas, up to the closing brace. -/
def readMembers : Nat → Nat → List Char → Option (List (Option String × Node) × List Char)
  | 0, _, _ => none
  | fuel + 1, levels, text =>
    match skipSpace text with
    | '"' :: rest => do
      let (units, after) ← readUnits rest
      match skipSpace after with
      | ':' :: rest =>
        let (value, after) ← readValue fuel levels (skipSpace rest)
        let member := (stringOf units, value)
        match skipSpace after with
        | ',' :: rest =>
          let (members, after) ← readMembers fuel levels rest
          return (member :: members, after)
        | '\x7d' :: rest => return ([member], rest)
        | _ => none
      | _ => none
    | _ => none

end

end JsonReader

open JsonReader in
/-- The tree of a JSON text. Below 127 open brackets nothing is readable. Every character is met by
two calls at most, which bounds the recursion. -/
def Node.ofJsonText? (text : String) : Option Node := do
  let chars := text.toList
  let (node, after) ← readValue (2 * chars.length + 1) 127 (skipSpace chars)
  if (skipSpace after).isEmpty then some node else none

/-- The value of a JSON text, none if any part of it is malformed or unreadable. -/
def Json.ofText? (text : String) : Option Json := (Node.ofJsonText? text).bind Node.toJson?

end RecordGrammar
