import RecordGrammar.Scope

/-! # Grammar fragments for masked times and e-mail addresses -/

namespace RecordGrammar.FormatFragment

/-- One digit, a single rule of the table that all masks share. -/
def digit : Build RuleHandle := do
  if (← get).table.defined "__bst_d" then
    lookup "__bst_d"
  else
    Scope.defineNamed ⟨"__bst"⟩ "d" (alternation (decimalDigits.map terminal))

/-- The stretches of a mask between its percent signs, one more than there are signs. -/
def maskSegments : List Char → List (List Char)
  | [] => [[]]
  | c :: rest =>
    if c = '%' then [] :: maskSegments rest
    else match maskSegments rest with
      | [] => [[c]]
      | segment :: segments => (c :: segment) :: segments

def segmentText (segment : List Char) : Build String :=
  if segment.isEmpty then return "" else emitTerminal (String.ofList segment)

/-- Text of a mask: a percent sign is one digit, every other character is itself. -/
def maskedTime (mask : String) : Build RuleHandle := do
  let stem ← keyedStem "__bst_" mask
  memoized stem fun _ => do
    let digit ← digit
    let segments ← (maskSegments mask.toList).mapM segmentText
    return digit.text.intercalate segments

def letters : List Char := "abcdefghijklmnopqrstuvwxyzABCDEFGHIJKLMNOPQRSTUVWXYZ".toList

def specials : List Char := "!#$%&*+-/=?^_~".toList

/-- A local part with single interior dots, an at sign, and dot-separated labels with interior
hyphens. -/
def mailAddress : Build RuleHandle := memoized "__bse" fun scope => do
  let letter ← scope.define (alternation (letters.map (terminal ·.toString)))
  let digit ← scope.define (alternation (decimalDigits.map terminal))
  let alphanumeric ← scope.define (alternation [letter.text, digit.text])
  let labelSlot ← scope.reserve
  let labelRest ← commit labelSlot (alternation [concatenation [alphanumeric.text, labelSlot.text],
    concatenation [terminal "-", labelSlot.text], alphanumeric.text])
  let label ← scope.define (optionalTail alphanumeric.text labelRest.text)
  let moreLabels ← scope.oneOrMore (concatenation [terminal ".", label.text])
  let domain ← scope.define (optionalTail label.text moreLabels.text)
  let special ← scope.define (alternation (specials.map (terminal ·.toString)))
  let allowed ← scope.define (alternation [special.text, alphanumeric.text])
  let dotted := concatenation [terminal ".", allowed.text]
  let localSlot ← scope.reserve
  let localRest ← commit localSlot (alternation [concatenation [allowed.text, localSlot.text],
    concatenation [dotted, localSlot.text], allowed.text, dotted])
  let mailbox ← scope.define (optionalTail allowed.text localRest.text)
  return concatenation [mailbox.text, terminal "@", domain.text]

end RecordGrammar.FormatFragment
