import RecordGrammar.Dialect

/-! # The texts that a grammar derives -/

namespace RecordGrammar

/-- The alternatives of each rule of a grammar. -/
abbrev RuleReading := String → Option Alternatives

/-- The committed rules of a table whose productions can be read. -/
def RuleTable.reading (t : RuleTable) : RuleReading := fun id =>
  (t.rule? id).bind fun rule => readProduction rule.production

/-- A row of symbols derives a text symbol by symbol. An exception to a rule takes one character
that is not by itself an alternative of that rule. -/
inductive Derives (rules : RuleReading) : List GrammarSymbol → List Char → Prop where
  | nil : Derives rules [] []
  | terminal {text after rest} (tail : Derives rules rest after) :
      Derives rules (.terminal text :: rest) (text ++ after)
  | rule {id alternatives alternative text after rest}
      (found : rules id = some alternatives) (chosen : alternative ∈ alternatives)
      (body : Derives rules alternative text) (tail : Derives rules rest after) :
      Derives rules (.rule id :: rest) (text ++ after)
  | exceptRule {id alternatives c after rest}
      (found : rules id = some alternatives) (outside : [.terminal [c]] ∉ alternatives)
      (tail : Derives rules rest after) :
      Derives rules (.exceptRule id :: rest) (c :: after)
  | exceptChars {chars c after rest} (outside : c ∉ chars) (tail : Derives rules rest after) :
      Derives rules (.exceptChars chars :: rest) (c :: after)
  | any {c after rest} (tail : Derives rules rest after) : Derives rules (.any :: rest) (c :: after)

/-- A text that the rule of a table derives. -/
def RuleTable.Derives (t : RuleTable) (rule : RuleHandle) (text : String) : Prop :=
  RecordGrammar.Derives t.reading [.rule rule.id] text.toList

end RecordGrammar
