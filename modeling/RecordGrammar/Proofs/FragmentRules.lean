import RecordGrammar.Dialect
import RecordGrammar.Proofs.RuleIds

/-! # The rules of the fragments that schemas are compiled to

A fragment is named by what it is built from, and its rules are given piece by piece, so that what
it commits can be compared and read without running it. -/

namespace RecordGrammar

/-- A piece of a production as the fragments write it. -/
inductive Piece where
  | terminal (raw : String)
  | key (name : String) (first : Bool)
  | rule (handle : RuleHandle)
  | except (handle : RuleHandle)
  deriving DecidableEq, Repr

namespace Piece

def text : Piece → String
  | .terminal raw => RecordGrammar.terminal raw
  | .key name first => JsonFragment.keyTerminal name first
  | .rule handle => handle.text
  | .except handle => exceptUnit (.rule handle)

/-- The text of a key with the separators on both of its sides. -/
def keyText (name : String) (first : Bool) : List Char :=
  (if first then [] else [',', ' ']) ++ (jsonString name).toList ++ [':', ' ']

def symbol : Piece → GrammarSymbol
  | .terminal raw => .terminal raw.toList
  | .key name first => .terminal (keyText name first)
  | .rule handle => .rule handle.id
  | .except handle => .exceptRule handle.id

/-- The rules that a piece refers to. -/
def references : Piece → List RuleHandle
  | .rule handle => [handle]
  | .except handle => [handle]
  | _ => []

end Piece

/-- The alternatives of a production, each a row of pieces. -/
abbrev Layout := List (List Piece)

namespace Layout

def text (layout : Layout) : String :=
  alternation (layout.map fun row => concatenation (row.map Piece.text))

def symbols (layout : Layout) : Alternatives := layout.map fun row => row.map Piece.symbol

/-- One alternative for each text. -/
def ofTerminals (texts : List String) : Layout := texts.map fun raw => [.terminal raw]

/-- One or more of a row, the rule itself being `this`. -/
def repeated (row : List Piece) (this : RuleHandle) : Layout := [row, row ++ [.rule this]]

end Layout

/-- The handle of the helper that a fragment defines as its `k`-th. -/
def helperHandle (stem : String) (k : Nat) : RuleHandle := ⟨RuleTable.autoId stem k⟩

namespace JsonFragment

def numberHelpers : List Layout :=
  let own := helperHandle "__bjnu"
  [Layout.ofTerminals ["e", "E"],
    Layout.ofTerminals nonzeroDigits,
    Layout.ofTerminals ["+", "-"],
    [[.terminal "0"], [.rule (own 1)]],
    Layout.repeated [.rule (own 3)] (own 4),
    [[.rule (own 3)], [.rule (own 1), .rule (own 4)]],
    [[.rule (own 5)], [.rule (own 2), .rule (own 5)]],
    [[.rule (own 0), .rule (own 4)], [.rule (own 0), .rule (own 2), .rule (own 4)]],
    [[.terminal ".", .rule (own 4)]]]

def numberLayout : Layout :=
  let own := helperHandle "__bjnu"
  [[.rule (own 6)], [.rule (own 6), .rule (own 7)], [.rule (own 6), .rule (own 8)],
    [.rule (own 6), .rule (own 8), .rule (own 7)]]

def stringHelpers : List Layout :=
  let own := helperHandle "__bjs"
  [Layout.ofTerminals (hexDigits.map Char.toString),
    [List.replicate 4 (.rule (own 0))],
    Layout.ofTerminals (escapeLetters.map Char.toString) ++ [[.terminal "u", .rule (own 1)]],
    [[.terminal "\\", .rule (own 2)]],
    Layout.ofTerminals forbiddenInString,
    [[.except (own 4)]],
    [[.rule (own 3)], [.rule (own 5)]],
    Layout.repeated [.rule (own 6)] (own 7)]

def stringLayout : Layout :=
  [[.terminal "\"", .rule (helperHandle "__bjs" 7), .terminal "\""], [.terminal "\"\""]]

def booleanLayout : Layout := Layout.ofTerminals ["true", "false"]

def arrayHelpers (stem : String) (inner : RuleHandle) : List Layout :=
  [Layout.repeated [.terminal ", ", .rule inner] (helperHandle stem 0)]

def arrayLayout (stem : String) (inner : RuleHandle) : Layout :=
  [[.terminal "[]"], [.terminal "[", .rule inner, .terminal "]"],
    [.terminal "[", .rule inner, .rule (helperHandle stem 0), .terminal "]"]]

def tupleLayout (members : List RuleHandle) : Layout :=
  [.terminal "[" :: ((members.map Piece.rule).intersperse (.terminal ", ") ++ [.terminal "]"])]

def objectRow : Bool → List (String × RuleHandle) → List Piece
  | _, [] => []
  | first, (name, value) :: rest => .key name first :: .rule value :: objectRow false rest

def objectLayout (fields : List (String × RuleHandle)) : Layout :=
  [.terminal "\x7b" :: (objectRow true fields ++ [.terminal "\x7d"])]

def inQuotesLayout (inner : RuleHandle) : Layout :=
  [[.terminal "\"", .rule inner, .terminal "\""]]

end JsonFragment

namespace FormatFragment

def digitHandle : RuleHandle := ⟨"__bst_d"⟩

def digitRule : Rule := ⟨digitHandle.id, Layout.text (Layout.ofTerminals decimalDigits)⟩

def segmentRow (segment : List Char) : List Piece :=
  if segment.isEmpty then [] else [.terminal (String.ofList segment)]

/-- The stretches of a mask with a digit between any two of them. -/
def maskRow : List (List Char) → List Piece
  | [] => []
  | [segment] => segmentRow segment
  | segment :: rest => segmentRow segment ++ .rule digitHandle :: maskRow rest

def maskLayout (mask : String) : Layout := [maskRow (maskSegments mask.toList)]

def mailHelpers : List Layout :=
  let own := helperHandle "__bse"
  [Layout.ofTerminals (letters.map Char.toString),
    Layout.ofTerminals decimalDigits,
    [[.rule (own 0)], [.rule (own 1)]],
    [[.rule (own 2), .rule (own 3)], [.terminal "-", .rule (own 3)], [.rule (own 2)]],
    [[.rule (own 2)], [.rule (own 2), .rule (own 3)]],
    Layout.repeated [.terminal ".", .rule (own 4)] (own 5),
    [[.rule (own 4)], [.rule (own 4), .rule (own 5)]],
    Layout.ofTerminals (specials.map Char.toString),
    [[.rule (own 7)], [.rule (own 2)]],
    [[.rule (own 8), .rule (own 9)], [.terminal ".", .rule (own 8), .rule (own 9)],
      [.rule (own 8)], [.terminal ".", .rule (own 8)]],
    [[.rule (own 8)], [.rule (own 8), .rule (own 9)]]]

def mailLayout : Layout :=
  let own := helperHandle "__bse"
  [[.rule (own 10), .terminal "@", .rule (own 6)]]

end FormatFragment

/-- A fragment that the compiler of schemas asks for. -/
inductive Fragment where
  | number
  | string
  | boolean
  | array (inner : RuleHandle)
  | tuple (members : List RuleHandle)
  | enumeration (literals : List Literal)
  | object (fields : List (String × RuleHandle))
  | inQuotes (inner : RuleHandle)
  | maskedTime (mask : String)
  | mailAddress
  deriving DecidableEq, Repr

namespace Fragment

def build : Fragment → Build RuleHandle
  | .number => JsonFragment.number
  | .string => JsonFragment.string
  | .boolean => JsonFragment.boolean
  | .array inner => JsonFragment.array inner
  | .tuple members => JsonFragment.tuple members
  | .enumeration literals => do
    JsonFragment.enumeration (← literals.mapM fun l => emitTerminal l.text)
  | .object fields => JsonFragment.object fields
  | .inQuotes inner => JsonFragment.inQuotes inner
  | .maskedTime mask => FormatFragment.maskedTime mask
  | .mailAddress => FormatFragment.mailAddress

/-- The text that the memo key of a fragment is cut from, if it has one. -/
def canonical? : Fragment → Option String
  | .array inner => some inner.text
  | .tuple members => some ("[".intercalate (members.map RuleHandle.text))
  | .enumeration literals => some (alternation (literals.map fun l => terminal l.text))
  | .object fields => some (",".intercalate (fields.map fun f => f.1 ++ f.2.text))
  | .inQuotes inner => some inner.text
  | .maskedTime mask => some mask
  | _ => none

/-- What the stem of a fragment starts with, before its memo key. -/
def tag : Fragment → String
  | .number => "__bjnu"
  | .string => "__bjs"
  | .boolean => "__bjb"
  | .array _ => "__bja_"
  | .tuple _ => "__bji_"
  | .enumeration _ => "__bje_"
  | .object _ => "__bjo_"
  | .inQuotes _ => "__bjq_"
  | .maskedTime _ => "__bst_"
  | .mailAddress => "__bse"

def stem (f : Fragment) : String := f.tag ++ (f.canonical?.elim "" memoKey)

def handle (f : Fragment) : RuleHandle := ⟨Scope.idOf ⟨f.stem⟩ "decl"⟩

def helpers (f : Fragment) : List Layout :=
  match f with
  | .number => JsonFragment.numberHelpers
  | .string => JsonFragment.stringHelpers
  | .array inner => JsonFragment.arrayHelpers f.stem inner
  | .mailAddress => FormatFragment.mailHelpers
  | _ => []

def layout (f : Fragment) : Layout :=
  match f with
  | .number => JsonFragment.numberLayout
  | .string => JsonFragment.stringLayout
  | .boolean => JsonFragment.booleanLayout
  | .array inner => JsonFragment.arrayLayout f.stem inner
  | .tuple members => JsonFragment.tupleLayout members
  | .enumeration literals => Layout.ofTerminals (literals.map Literal.text)
  | .object fields => JsonFragment.objectLayout fields
  | .inQuotes inner => JsonFragment.inQuotesLayout inner
  | .maskedTime mask => FormatFragment.maskLayout mask
  | .mailAddress => FormatFragment.mailLayout

end Fragment

/-- Rules under the automatic ids of a stem, numbered from `n` on. -/
def numberedRules (stem : String) : Nat → List Layout → List Rule
  | _, [] => []
  | n, layout :: rest => ⟨RuleTable.autoId stem n, layout.text⟩ :: numberedRules stem (n + 1) rest

namespace Fragment

/-- The rules of a fragment in the order of their commitment. -/
def rules (f : Fragment) : List Rule :=
  numberedRules f.stem 0 f.helpers ++ [⟨f.handle.id, f.layout.text⟩]

/-- The rule that a fragment shares with others of its kind. -/
def shared : Fragment → List Rule
  | .maskedTime _ => [FormatFragment.digitRule]
  | _ => []

end Fragment

end RecordGrammar
