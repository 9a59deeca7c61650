import RecordGrammar.Proofs.CompilerFailures
import RecordGrammar.Proofs.HashedTexts

/-! # Calls of block functions, one after the other on one table

A block that a table holds already is not built again, and so not checked again either. What is
known of a table that only block calls were made on is what their rules must have come from. -/

namespace RecordGrammar

open MarkdownFragment (Bullet ListStyle ListEntry)

/-- The handle of what is memoized under a stem. -/
def declHandle (stem : String) : RuleHandle := ⟨Scope.idOf ⟨stem⟩ "decl"⟩

theorem declHandle_inj {stem stem' : String} (h : (declHandle stem).id = (declHandle stem').id) :
    stem = stem' := by
  obtain ⟨hscope, -⟩ := Scope.idOf_inj underscore_not_mem_decl underscore_not_mem_decl h
  exact congrArg Scope.stem hscope

/-- A call of a block function. -/
inductive BlockCall where
  | null
  | number
  | string
  | boolean
  | array (inner : RuleHandle)
  | tuple (members : List RuleHandle)
  | enumeration (members : List String)
  | object (fields : List (String × RuleHandle))
  | inQuotes (inner : RuleHandle)
  | line
  | lineWithLead (lead : Option String)
  | heading (level : Nat) (lead : Option String)
  | listItem (bullet : Bullet) (lead : Option String)
  | bulletList (bullet : Bullet) (count : Nat)
  | numberedList (count : Nat)
  | entryList (entries : List ListEntry) (style : ListStyle)
  | paragraph
  | maskedTime (mask : String)
  | mailAddress
  deriving DecidableEq

namespace JsonFragment

/-- The text that an object is keyed by. -/
def objectText (fields : List (String × RuleHandle)) : String :=
  ",".intercalate (fields.map fun f => f.1 ++ f.2.text)

def objectProduction (fields : List (String × RuleHandle)) : String :=
  concatenation ([terminal "\x7b"] ++ objectMembers true fields ++ [terminal "\x7d"])

end JsonFragment

namespace MarkdownFragment

/-- The stem of a line behind a production. -/
def leadStem (lead : String) : String := "__bmlp_" ++ memoKey lead

def groupStem (production : String) : String := "__bmg_" ++ memoKey production

/-- A marker, and the group of what follows it. -/
def markedText (marker : String) : Option String → String
  | none => marker
  | some lead => concatenation [marker, (declHandle (groupStem lead)).text]

def headingMarker (level : Nat) : String :=
  terminal (String.ofList (List.replicate (level + 1) '#') ++ " ")

/-- The entries of a list, each with its marker. -/
def markedEntries (entries : List ListEntry) (style : ListStyle) : List (ListEntry × String) :=
  entries.zipIdx.map fun entry => (entry.1, style.marker (entry.2 + 1))

/-- The text that a list is keyed by. -/
def listText (entries : List ListEntry) (style : ListStyle) : String :=
  "\x1e".intercalate ((markedEntries entries style).map fun entry => entry.1.canonical entry.2)

/-- Neither what leads the entry nor what stands in it is an empty production. -/
def ListEntry.Sound (entry : ListEntry) : Prop := entry.lead ≠ some "" ∧ entry.body ≠ some ""

end MarkdownFragment

namespace BlockCall

open JsonFragment MarkdownFragment

def build : BlockCall → Build RuleHandle
  | null => JsonFragment.null
  | number => JsonFragment.number
  | string => JsonFragment.string
  | boolean => JsonFragment.boolean
  | array inner => JsonFragment.array inner
  | tuple members => JsonFragment.tuple members
  | enumeration members => JsonFragment.enumeration members
  | object fields => JsonFragment.object fields
  | inQuotes inner => JsonFragment.inQuotes inner
  | line => MarkdownFragment.line
  | lineWithLead lead => MarkdownFragment.lineWithLead lead
  | heading level lead => MarkdownFragment.heading level lead
  | listItem bullet lead => MarkdownFragment.listItem bullet lead
  | bulletList bullet count => MarkdownFragment.bulletList bullet count
  | numberedList count => MarkdownFragment.numberedList count
  | entryList entries style => MarkdownFragment.entryList entries style
  | paragraph => MarkdownFragment.paragraph
  | maskedTime mask => FormatFragment.maskedTime mask
  | mailAddress => FormatFragment.mailAddress

/-- The stem that a block is memoized under. -/
def stem : BlockCall → String
  | null => "__bjn"
  | number => "__bjnu"
  | string => "__bjs"
  | boolean => "__bjb"
  | array inner => "__bja_" ++ memoKey inner.text
  | tuple members => "__bji_" ++ memoKey ("[".intercalate (members.map RuleHandle.text))
  | enumeration members => "__bje_" ++ memoKey (alternation members)
  | object fields => "__bjo_" ++ memoKey (objectText fields)
  | inQuotes inner => "__bjq_" ++ memoKey inner.text
  | line => "__bml"
  | lineWithLead lead => lead.elim "__bml" leadStem
  | heading level lead => leadStem (markedText (headingMarker level) lead)
  | listItem bullet lead => leadStem (markedText (terminal bullet.marker) lead)
  | bulletList bullet count => "__bmul_" ++ bullet.tag ++ "_" ++ toString count
  | numberedList count => "__bmnl_" ++ toString count
  | entryList entries style => "__bmil_" ++ memoKey (listText entries style)
  | paragraph => "__bmp"
  | maskedTime mask => "__bst_" ++ memoKey mask
  | mailAddress => "__bse"

/-- What a call that goes through returns. -/
def handle (call : BlockCall) : RuleHandle := declHandle call.stem

/-- No production that the call asks for is empty. -/
def Acceptable : BlockCall → Prop
  | enumeration members => alternation members ≠ ""
  | lineWithLead lead | heading _ lead | listItem _ lead => lead ≠ some ""
  | entryList entries _ => entries ≠ [] ∧ ∀ entry ∈ entries, entry.Sound
  | maskedTime mask => mask ≠ ""
  | _ => True

theorem build_program (call : BlockCall) : TableProgram call.build := by
  cases call with
  | null => exact null_program
  | number => exact number_program
  | string => exact string_program
  | boolean => exact boolean_program
  | array inner => exact array_program inner
  | tuple members => exact tuple_program members
  | enumeration members => exact enumeration_program members
  | object fields => exact object_program fields
  | inQuotes inner => exact inQuotes_program inner
  | line => exact line_program
  | lineWithLead lead => exact lineWithLead_program lead
  | heading level lead => exact heading_program level lead
  | listItem bullet lead => exact listItem_program bullet lead
  | bulletList bullet count => exact bulletList_program bullet count
  | numberedList count => exact numberedList_program count
  | entryList entries style => exact entryList_program entries style
  | paragraph => exact paragraph_program
  | maskedTime mask => exact FormatFragment.maskedTime_program mask
  | mailAddress => exact FormatFragment.mailAddress_program

/-- The session that calls leave, from an empty table on. What a call that fails did stays done. -/
def after (calls : List BlockCall) : Session :=
  calls.foldl (fun s call => finalState (call.build s)) {}

theorem after_concat (calls : List BlockCall) (call : BlockCall) :
    after (calls ++ [call]) = finalState (call.build (after calls)) := by
  rw [after, List.foldl_append]
  rfl

/-- Later calls add to the log and to the table. -/
theorem after_append (calls more : List BlockCall) :
    (after calls).log <+: (after (calls ++ more)).log ∧
      (after calls).table.Grows (after (calls ++ more)).table := by
  induction more using List.reverseRecOn with
  | nil => simp [RuleTable.Grows.refl]
  | append_singleton more call ih =>
    rw [← List.append_assoc, after_concat]
    exact ⟨ih.1.trans (call.build_program.log_extends _),
      ih.2.trans (call.build_program.table_grows _)⟩

end BlockCall

end RecordGrammar
