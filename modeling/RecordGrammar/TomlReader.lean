import RecordGrammar.TomlScalars
import RecordGrammar.TomlTable

/-! # Reading TOML text -/

namespace RecordGrammar.TomlReader

/-- Brackets nest less deep than this, and keys have fewer parts. -/
def nestingLimit : Nat := 80

def isBareKey (c : Char) : Bool := c.isAlphanum || c == '_' || c == '-'

def readSimpleKey : List Char → Option (String × List Char)
  | '"' :: rest =>
    (readBasic (rest.length + 1) rest).map fun (key, rest) => (String.ofList key, rest)
  | '\'' :: rest => (readLiteral rest).map fun (key, rest) => (String.ofList key, rest)
  | text =>
    let key := text.takeWhile isBareKey
    if key.isEmpty then none else some (String.ofList key, text.dropWhile isBareKey)

/-- The parts of a key with points between them, and blanks around any of them. -/
def readKeyParts : Nat → List Char → Option (List String × List Char)
  | 0, _ => none
  | fuel + 1, text => do
    let (part, rest) ← readSimpleKey (skipBlank text)
    match skipBlank rest with
    | '.' :: rest => do
      let (parts, rest) ← readKeyParts fuel rest
      return (part :: parts, rest)
    | rest => return ([part], rest)

def readKey (text : List Char) : Option (KeyPath × List Char) := do
  let (parts, rest) ← readKeyParts (text.length + 1) text
  let name ← parts.getLast?
  if parts.length < nestingLimit then some (⟨parts.dropLast, name⟩, rest) else none

def readNumber (text : List Char) : Option (Node × List Char) :=
  readMoment text <|> readFloat text <|> readSpecialFloat text <|> readInteger text

mutual

/-- Reads one value at the start of the text, with as many levels of brackets as are left. -/
def readValue : Nat → Nat → List Char → Option (Node × List Char)
  | 0, _, _ => none
  | _ + 1, _, 't' :: 'r' :: 'u' :: 'e' :: rest => some (.bool true, rest)
  | _ + 1, _, 'f' :: 'a' :: 'l' :: 's' :: 'e' :: rest => some (.bool false, rest)
  | fuel + 1, levels, '[' :: rest =>
    if levels ≤ 1 then none
    else (readItems fuel (levels - 1) rest).map fun (items, rest) => (.sequence items, rest)
  | fuel + 1, levels, '\x7b' :: rest =>
    if levels ≤ 1 then none
    else match skipBlank rest with
      | '\x7d' :: rest => some (.mapping [], rest)
      | text => (readInline fuel (levels - 1) [] text).map fun (entries, rest) =>
        (entries.toNode, rest)
  | _ + 1, _, text =>
    match text with
    | '"' :: _ | '\'' :: _ =>
      (readString text).map fun (chars, rest) => (.string (String.ofList chars), rest)
    | _ => readNumber text

/-- The items of an array up to its closing bracket. A comma may follow the last one. -/
def readItems : Nat → Nat → List Char → Option (List Node × List Char)
  | 0, _, _ => none
  | fuel + 1, levels, text =>
    match skipLayout false text with
    | ']' :: rest => some ([], rest)
    | text => do
      let (item, rest) ← readValue fuel levels text
      match skipLayout false rest with
      | ',' :: rest => do
        let (items, rest) ← readItems fuel levels rest
        return (item :: items, rest)
      | ']' :: rest => return ([item], rest)
      | _ => none

/-- The pairs of an inline table up to its closing brace, added to those before them. -/
def readInline : Nat → Nat → TableEntries → List Char → Option (TableEntries × List Char)
  | 0, _, _, _ => none
  | fuel + 1, levels, entries, text => do
    let (key, rest) ← readKey text
    let rest ← expect '=' rest
    let (node, rest) ← readValue fuel levels (skipBlank rest)
    let entries ← entries.assign key node
    match skipBlank rest with
    | ',' :: rest => readInline fuel levels entries rest
    | '\x7d' :: rest => return (entries, rest)
    | _ => none

end

/-- A document while it is read: its entries, and the table that was opened last. -/
structure OpenDocument where
  entries : TableEntries := []
  opened : List String := []

def KeyPath.parts (key : KeyPath) : List String := key.parents ++ [key.name]

/-- Reads one header or one pair. -/
def readStatement (document : OpenDocument) : List Char → Option (OpenDocument × List Char)
  | '[' :: '[' :: rest => do
    let (key, rest) ← readKey rest
    let rest ← expect ']' (← expect ']' rest)
    return (⟨← document.entries.openElement key, KeyPath.parts key⟩, rest)
  | '[' :: rest => do
    let (key, rest) ← readKey rest
    let rest ← expect ']' rest
    return (⟨← document.entries.openTable key, KeyPath.parts key⟩, rest)
  | text => do
    let (key, rest) ← readKey text
    let rest ← expect '=' rest
    let (node, rest) ← readValue (2 * rest.length + 1) nestingLimit (skipBlank rest)
    return ({ document with entries := ← document.entries.assignAt document.opened key node }, rest)

/-- Reads line by line. -/
def readLines : Nat → OpenDocument → List Char → Option OpenDocument
  | 0, _, _ => none
  | fuel + 1, document, text =>
    match skipLayout false text with
    | [] => some document
    | text => do
      let (document, rest) ← readStatement document text
      readLines fuel document (← lineEnd? rest)

end TomlReader

open TomlReader in
/-- The tree of a TOML text, which may begin with a byte order mark. -/
def Node.ofTomlText? (text : String) : Option Node := do
  let chars := match text.toList with
    | '\ufeff' :: rest => rest
    | chars => chars
  let document ← readLines (chars.length + 1) {} chars
  return document.entries.toNode

end RecordGrammar
