import RecordGrammar.DocumentNode

/-! # The scalars of TOML: blanks, strings, numbers and times

Each reader takes the characters from where it stands and gives what it read with the rest. -/

namespace RecordGrammar.TomlReader

def isBlank (c : Char) : Bool := c == ' ' || c == '\t'

def skipBlank (text : List Char) : List Char := text.dropWhile isBlank

/-- No control character but the tab. -/
def isPlain (c : Char) : Bool := c == '\t' || (' ' ≤ c && c != '\x7f')

def newline? : List Char → Option (List Char)
  | '\n' :: rest => some rest
  | '\r' :: '\n' :: rest => some rest
  | _ => none

def skipComment : List Char → List Char
  | '#' :: rest => rest.dropWhile isPlain
  | text => text

/-- The rest behind the blanks and the comment that may end a line. -/
def lineEnd? (text : List Char) : Option (List Char) :=
  match skipComment (skipBlank text) with
  | [] => some []
  | text => newline? text

/-- Skips blanks, line breaks and whole comments. -/
def skipLayout (inComment : Bool) : List Char → List Char
  | [] => []
  | '\n' :: rest => skipLayout false rest
  | '\r' :: '\n' :: rest => skipLayout false rest
  | c :: rest =>
    if inComment then if isPlain c then skipLayout true rest else c :: rest
    else if isBlank c then skipLayout false rest
    else if c = '#' then skipLayout true rest
    else c :: rest

/-! ## Strings -/

/-- The character of a code that is no surrogate. -/
def scalar? (code : Nat) : Option Char := if code.isValidChar then some (Char.ofNat code) else none

def escaped? : Char → Option Char
  | 'b' => some '\x08'
  | 't' => some '\t'
  | 'n' => some '\n'
  | 'f' => some '\x0c'
  | 'r' => some '\r'
  | '"' => some '"'
  | '\\' => some '\\'
  | _ => none

/-- The character of an escape, from behind its backslash. -/
def readEscape : List Char → Option (Char × List Char)
  | 'u' :: a :: b :: c :: d :: rest => do
    return (← scalar? (← hexNumber? [a, b, c, d]), rest)
  | 'U' :: a :: b :: c :: d :: e :: f :: g :: h :: rest => do
    return (← scalar? (← hexNumber? [a, b, c, d, e, f, g, h]), rest)
  | c :: rest => do
    return (← escaped? c, rest)
  | [] => none

/-- A string on one line, up to its closing quote. -/
def readBasic : Nat → List Char → Option (List Char × List Char)
  | 0, _ => none
  | _ + 1, '"' :: rest => some ([], rest)
  | fuel + 1, '\\' :: rest => do
    let (char, rest) ← readEscape rest
    let (chars, after) ← readBasic fuel rest
    return (char :: chars, after)
  | fuel + 1, c :: rest =>
    if isPlain c then do
      let (chars, after) ← readBasic fuel rest
      return (c :: chars, after)
    else none
  | _ + 1, [] => none

/-- Skips blanks and line breaks. -/
def skipBlankLines : List Char → List Char
  | '\n' :: rest => skipBlankLines rest
  | '\r' :: '\n' :: rest => skipBlankLines rest
  | c :: rest => if isBlank c then skipBlankLines rest else c :: rest
  | [] => []

/-- A string over several lines, up to three quotes; two more may stand right before them. A
backslash at the end of a line joins it to the next text. -/
def readLongBasic : Nat → List Char → Option (List Char × List Char)
  | 0, _ => none
  | _ + 1, '"' :: '"' :: '"' :: '"' :: '"' :: rest => some (['"', '"'], rest)
  | _ + 1, '"' :: '"' :: '"' :: '"' :: rest => some (['"'], rest)
  | _ + 1, '"' :: '"' :: '"' :: rest => some ([], rest)
  | fuel + 1, '\\' :: rest =>
    match newline? (skipBlank rest) with
    | some rest => readLongBasic fuel (skipBlankLines rest)
    | none => do
      let (char, rest) ← readEscape rest
      let (chars, after) ← readLongBasic fuel rest
      return (char :: chars, after)
  | fuel + 1, '\r' :: '\n' :: rest => do
    let (chars, after) ← readLongBasic fuel rest
    return ('\n' :: chars, after)
  | fuel + 1, c :: rest =>
    if isPlain c || c == '\n' then do
      let (chars, after) ← readLongBasic fuel rest
      return (c :: chars, after)
    else none
  | _ + 1, [] => none

/-- A string on one line without escapes, up to its closing apostrophe. -/
def readLiteral : List Char → Option (List Char × List Char)
  | [] => none
  | '\'' :: rest => some ([], rest)
  | c :: rest =>
    if isPlain c then do
      let (chars, after) ← readLiteral rest
      return (c :: chars, after)
    else none

/-- A string over several lines without escapes. -/
def readLongLiteral : List Char → Option (List Char × List Char)
  | [] => none
  | '\'' :: '\'' :: '\'' :: '\'' :: '\'' :: rest => some (['\'', '\''], rest)
  | '\'' :: '\'' :: '\'' :: '\'' :: rest => some (['\''], rest)
  | '\'' :: '\'' :: '\'' :: rest => some ([], rest)
  | '\r' :: '\n' :: rest => do
    let (chars, after) ← readLongLiteral rest
    return ('\n' :: chars, after)
  | c :: rest =>
    if isPlain c || c == '\n' then do
      let (chars, after) ← readLongLiteral rest
      return (c :: chars, after)
    else none

/-- A line break right behind the opening quotes is not part of the string. -/
def dropFirstNewline (text : List Char) : List Char := (newline? text).getD text

def readString : List Char → Option (List Char × List Char)
  | '"' :: '"' :: '"' :: rest => readLongBasic (rest.length + 1) (dropFirstNewline rest)
  | '"' :: rest => readBasic (rest.length + 1) rest
  | '\'' :: '\'' :: '\'' :: rest => readLongLiteral (dropFirstNewline rest)
  | '\'' :: rest => readLiteral rest
  | _ => none

/-! ## Numbers -/

/-- Further digits, which single underscores may divide. -/
def moreDigits (isDigit : Char → Bool) : List Char → List Char × List Char
  | '_' :: c :: rest =>
    if isDigit c then
      let (digits, after) := moreDigits isDigit rest
      (c :: digits, after)
    else ([], '_' :: c :: rest)
  | c :: rest =>
    if isDigit c then
      let (digits, after) := moreDigits isDigit rest
      (c :: digits, after)
    else ([], c :: rest)
  | [] => ([], [])

def readDigits (isDigit : Char → Bool) : List Char → Option (List Char × List Char)
  | c :: rest =>
    if isDigit c then
      let (digits, after) := moreDigits isDigit rest
      some (c :: digits, after)
    else none
  | [] => none

def readSign : List Char → Bool × List Char
  | '+' :: rest => (false, rest)
  | '-' :: rest => (true, rest)
  | text => (false, text)

def ofDigits (base : Nat) (digits : List Char) : Nat :=
  digits.foldl (fun n c => base * n + (hexValue? c).getD 0) 0

/-- A sign and a whole number without superfluous zeros. -/
def readWhole (text : List Char) : Option (Bool × List Char × List Char) :=
  match readSign text with
  | (negative, '0' :: rest) => some (negative, ['0'], rest)
  | (negative, rest) => (readDigits Char.isDigit rest).map fun (digits, after) =>
    (negative, digits, after)

/-- An integer that fits 64 bits with a sign. -/
def integer (n : Int) : Option Node := if (int64? n).isSome then some (.int n) else none

def radix (base : Nat) (isDigit : Char → Bool) (text : List Char) : Option (Node × List Char) := do
  let (digits, rest) ← readDigits isDigit text
  return (← integer (ofDigits base digits), rest)

def readInteger : List Char → Option (Node × List Char)
  | '0' :: 'x' :: rest => radix 16 (fun c => (hexValue? c).isSome) rest
  | '0' :: 'o' :: rest => radix 8 (fun c => '0' ≤ c && c ≤ '7') rest
  | '0' :: 'b' :: rest => radix 2 (fun c => c == '0' || c == '1') rest
  | text => do
    let (negative, digits, rest) ← readWhole text
    let n : Int := ofDigits 10 digits
    return (← integer (if negative then -n else n), rest)

/-- The double nearest to decimal digits times a power of ten. -/
def decimal (negative : Bool) (digits : List Char) (exponent : Int) : Double :=
  let n := ofDigits 10 digits
  let rank :=
    if n = 0 ∨ exponent + digits.length < -400 then 0
    else if 400 < exponent then Magnitude.limit
    else Magnitude.round (n * Nat.pow 10 exponent.toNat) (Nat.pow 10 (-exponent).toNat)
  .ofRank negative rank

def readExponent : List Char → Option (Int × List Char)
  | c :: rest =>
    if c = 'e' ∨ c = 'E' then do
      let (negative, rest) := readSign rest
      let (digits, rest) ← readDigits Char.isDigit rest
      let n : Int := ofDigits 10 digits
      return (if negative then -n else n, rest)
    else none
  | [] => none

/-- A whole number with a fraction, an exponent or both. It does not overflow to the positive. -/
def readFloat (text : List Char) : Option (Node × List Char) := do
  let (negative, whole, rest) ← readWhole text
  let (fraction, exponent, rest) ← match rest with
    | '.' :: rest => do
      let (fraction, rest) ← readDigits Char.isDigit rest
      let (exponent, rest) := (readExponent rest).getD (0, rest)
      some (fraction, exponent, rest)
    | rest => do
      let (exponent, rest) ← readExponent rest
      some ([], exponent, rest)
  let x := decimal negative (whole ++ fraction) (exponent - fraction.length)
  if x = .infinite false then none else some (.float x, rest)

def readSpecialFloat (text : List Char) : Option (Node × List Char) :=
  match readSign text with
  | (negative, 'i' :: 'n' :: 'f' :: rest) => some (.float (.infinite negative), rest)
  | (_, 'n' :: 'a' :: 'n' :: rest) => some (.float .nan, rest)
  | _ => none

/-! ## Dates and times -/

def twoDigits (low high : Nat) : List Char → Option (Nat × List Char)
  | a :: b :: rest =>
    let n := ofDigits 10 [a, b]
    if a.isDigit && b.isDigit && low ≤ n && n ≤ high then some (n, rest) else none
  | _ => none

def expect (c : Char) : List Char → Option (List Char)
  | d :: rest => if d = c then some rest else none
  | [] => none

def daysOf (year month : Nat) : Nat :=
  if month = 2 then if year % 4 = 0 ∧ (year % 100 ≠ 0 ∨ year % 400 = 0) then 29 else 28
  else if month = 4 ∨ month = 6 ∨ month = 9 ∨ month = 11 then 30
  else 31

def skipDate (text : List Char) : Option (List Char) := do
  let (century, rest) ← twoDigits 0 99 text
  let (year, rest) ← twoDigits 0 99 rest
  let (month, rest) ← twoDigits 1 12 (← expect '-' rest)
  let (_, rest) ← twoDigits 1 (daysOf (100 * century + year) month) (← expect '-' rest)
  return rest

def skipTime (text : List Char) : Option (List Char) := do
  let (_, rest) ← twoDigits 0 23 text
  let (_, rest) ← twoDigits 0 59 (← expect ':' rest)
  let (_, rest) ← twoDigits 0 60 (← expect ':' rest)
  match rest with
  | '.' :: c :: rest => if c.isDigit then some (rest.dropWhile Char.isDigit) else none
  | '.' :: [] => none
  | rest => some rest

def skipOffset : List Char → List Char
  | 'Z' :: rest => rest
  | 'z' :: rest => rest
  | c :: rest =>
    if c = '+' ∨ c = '-' then
      let offset := do
        let (_, rest) ← twoDigits 0 23 rest
        let (_, rest) ← twoDigits 0 59 (← expect ':' rest)
        return rest
      offset.getD (c :: rest)
    else c :: rest
  | [] => []

/-- A date with or without a time, or a time alone. -/
def skipMoment (text : List Char) : Option (List Char) :=
  match skipDate text with
  | some (c :: rest) =>
    if c = 'T' ∨ c = 't' ∨ c = ' ' then
      some (((skipTime rest).map skipOffset).getD (c :: rest))
    else some (c :: rest)
  | some [] => some []
  | none => skipTime text

/-- A moment is a value of its own, a mapping of one entry that no structure knows. -/
def readMoment (text : List Char) : Option (Node × List Char) := do
  let rest ← skipMoment text
  let moment := String.ofList (text.take (text.length - rest.length))
  return (.mapping [("moment", .string moment)], rest)

end RecordGrammar.TomlReader
