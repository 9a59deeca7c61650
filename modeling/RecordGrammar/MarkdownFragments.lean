import RecordGrammar.Scope

/-! # Grammar fragments for Markdown structure

All of it is built from lines: one or more characters other than a newline, closed by a newline. A
list without a count repeats its item; a list with a count is unrolled, which is what ties the
`k`-th item to the marker `k. `. -/

namespace RecordGrammar.MarkdownFragment

inductive Bullet where
  | star
  | dash
  deriving DecidableEq, Repr

def Bullet.marker : Bullet → String
  | .star => "* "
  | .dash => "- "

def Bullet.tag : Bullet → String
  | .star => "star"
  | .dash => "dash"

inductive ListStyle where
  | bulleted (bullet : Bullet)
  | numbered
  deriving DecidableEq, Repr

def numberMarker (k : Nat) : String := terminal (toString k ++ ". ")

/-- The marker of the `k`-th item, counted from one. -/
def ListStyle.marker : ListStyle → Nat → String
  | .bulleted bullet, _ => terminal bullet.marker
  | .numbered, k => numberMarker k

/-- An entry of an itemized list. `lead` follows the marker, and `body` takes the place of the free
line; both are production text. -/
structure ListEntry where
  lead : Option String := none
  body : Option String := none
  deriving DecidableEq, Repr

def line : Build RuleHandle := memoized "__bml" fun scope => do
  let newline ← scope.define (terminal "\n")
  let body ← scope.oneOrMore (exceptUnit (.rule newline))
  return concatenation [body.text, terminal "\n"]

/-- A production, then a line. -/
def leadLine (lead : String) : Build RuleHandle := do
  let stem ← keyedStem "__bmlp_" lead
  memoized stem fun scope => do
    let lead ← scope.define lead
    let line ← line
    return concatenation [lead.text, line.text]

def lineWithLead (lead : Option String) : Build RuleHandle := lead.elim line leadLine

/-- A production as a rule of its own, so that its alternatives stay together when it is spliced. -/
def grouped (production : String) : Build RuleHandle := do
  let stem ← keyedStem "__bmg_" production
  memoized stem fun _ => return production

def markedLead (marker : String) : Option String → Build String
  | none => return marker
  | some lead => do
    let lead ← grouped lead
    return concatenation [marker, lead.text]

/-- One hash more than the level, a space, and what leads the line. -/
def heading (level : Nat) (lead : Option String) : Build RuleHandle := do
  let hashes := String.ofList (List.replicate (level + 1) '#')
  leadLine (← markedLead (terminal (hashes ++ " ")) lead)

def listItem (bullet : Bullet) (lead : Option String) : Build RuleHandle := do
  leadLine (← markedLead (terminal bullet.marker) lead)

/-- A list of `count` items, or of one or more if `count` is zero. -/
def bulletList (bullet : Bullet) (count : Nat) : Build RuleHandle :=
  memoized ("__bmul_" ++ bullet.tag ++ "_" ++ toString count) fun scope => do
    let item ← listItem bullet none
    if count = 0 then
      let items ← scope.oneOrMore item.text
      return items.text
    else
      return concatenation (List.replicate count item.text)

/-- A list of `count` items numbered from one, or of one or more items under any numbers if `count`
is zero. -/
def numberedList (count : Nat) : Build RuleHandle :=
  memoized ("__bmnl_" ++ toString count) fun scope => do
    if count = 0 then
      let digit ← scope.define (alternation (decimalDigits.map terminal))
      let number ← scope.oneOrMore digit.text
      let item ← leadLine (concatenation [number.text, terminal ". "])
      let items ← scope.oneOrMore item.text
      return items.text
    else
      let items ← (List.range count).mapM fun k => leadLine (numberMarker (k + 1))
      return concatenation (items.map RuleHandle.text)

def ListEntry.canonical (entry : ListEntry) (marker : String) : String :=
  marker ++ entry.lead.getD "" ++ "\x1f" ++ entry.body.getD ""

/-- An item of an itemized list: marker and lead, then the body and a newline, or a line. -/
def listEntry (scope : Scope) (entry : ListEntry) (marker : String) : Build RuleHandle := do
  let lead ← markedLead marker entry.lead
  match entry.body with
  | some body =>
    let body ← grouped body
    scope.define (concatenation [lead, body.text, terminal "\n"])
  | none => leadLine lead

/-- The given entries in their order. A list without entries is refused, its production is empty. -/
def entryList (entries : List ListEntry) (style : ListStyle) : Build RuleHandle := do
  let marked := entries.zipIdx.map fun entry => (entry.1, style.marker (entry.2 + 1))
  let canonical := "\x1e".intercalate (marked.map fun entry => entry.1.canonical entry.2)
  let stem ← keyedStem "__bmil_" canonical
  memoized stem fun scope => do
    let items ← marked.mapM fun entry => listEntry scope entry.1 entry.2
    return concatenation (items.map RuleHandle.text)

/-- One or more lines, then an empty line. -/
def paragraph : Build RuleHandle := memoized "__bmp" fun scope => do
  let line ← line
  let lines ← scope.oneOrMore line.text
  return concatenation [lines.text, terminal "\n"]

end RecordGrammar.MarkdownFragment
