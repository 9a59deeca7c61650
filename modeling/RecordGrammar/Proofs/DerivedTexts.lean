import RecordGrammar.Derivation

/-! # Deriving texts from rows of symbols -/

namespace RecordGrammar

/-- The rule that a symbol refers to. -/
def GrammarSymbol.reference? : GrammarSymbol → Option String
  | .rule id => some id
  | .exceptRule id => some id
  | _ => none

/-- Reading on from an id, an id that is met. -/
inductive RuleReading.Leads (rules : RuleReading) (start : String) : String → Prop where
  | start : rules.Leads start start
  | step {id next alternatives alternative symbol} : rules.Leads start id →
      rules id = some alternatives → alternative ∈ alternatives → symbol ∈ alternative →
      symbol.reference? = some next → rules.Leads start next

namespace Derives

variable {rules rules' : RuleReading} {xs ys : List GrammarSymbol} {text text' : List Char}

theorem append (h : Derives rules xs text) (h' : Derives rules ys text') :
    Derives rules (xs ++ ys) (text ++ text') := by
  induction h with
  | nil => exact h'
  | terminal _ ih =>
    rw [List.append_assoc]
    exact .terminal ih
  | rule found chosen body _ _ ih =>
    rw [List.append_assoc]
    exact .rule found chosen body ih
  | exceptRule found outside _ ih => exact .exceptRule found outside ih
  | exceptChars outside _ ih => exact .exceptChars outside ih
  | any _ ih => exact .any ih

theorem nil_iff : Derives rules [] text ↔ text = [] := by
  constructor
  · rintro ⟨⟩
    rfl
  · rintro rfl
    exact .nil

theorem terminal_cons_iff {raw : List Char} : Derives rules (.terminal raw :: xs) text ↔
    ∃ after, text = raw ++ after ∧ Derives rules xs after := by
  constructor
  · rintro ⟨⟩
    exact ⟨_, rfl, ‹_›⟩
  · rintro ⟨after, rfl, h⟩
    exact .terminal h

theorem terminal_iff {raw : List Char} : Derives rules [.terminal raw] text ↔ text = raw := by
  simp [terminal_cons_iff, nil_iff]

theorem terminal_append (raw : List Char) (h : Derives rules xs text) :
    Derives rules (.terminal raw :: xs) (raw ++ text) := .terminal h

/-- The texts of the rule of an id are those of its alternatives. -/
theorem rule_iff {id : String} : Derives rules [.rule id] text ↔
    ∃ alternatives, rules id = some alternatives ∧
      ∃ alternative ∈ alternatives, Derives rules alternative text := by
  constructor
  · intro h
    cases h with
    | rule found chosen body tail =>
      obtain rfl := nil_iff.1 tail
      exact ⟨_, found, _, chosen, by rwa [List.append_nil]⟩
  · rintro ⟨alternatives, found, alternative, chosen, body⟩
    simpa using Derives.rule found chosen body .nil

theorem rule_cons_iff {id : String} : Derives rules (.rule id :: xs) text ↔
    ∃ before after, text = before ++ after ∧ Derives rules [.rule id] before ∧
      Derives rules xs after := by
  constructor
  · intro h
    cases h with
    | rule found chosen body tail =>
      exact ⟨_, _, rfl, rule_iff.2 ⟨_, found, _, chosen, body⟩, tail⟩
  · rintro ⟨before, after, rfl, h, h'⟩
    exact h.append h'

theorem exceptRule_iff {id : String} : Derives rules [.exceptRule id] text ↔
    ∃ alternatives c, rules id = some alternatives ∧ [.terminal [c]] ∉ alternatives ∧
      text = [c] := by
  constructor
  · intro h
    cases h with
    | exceptRule found outside tail =>
      obtain rfl := nil_iff.1 tail
      exact ⟨_, _, found, outside, rfl⟩
  · rintro ⟨alternatives, c, found, outside, rfl⟩
    exact .exceptRule found outside .nil

/-- Symbols that refer to rules of a part of a grammar, and except only those that are `kept`. -/
def Within (part kept : String → Prop) (xs : List GrammarSymbol) : Prop :=
  ∀ symbol ∈ xs, ∀ next, symbol.reference? = some next →
    part next ∧ (symbol = .exceptRule next → kept next)

/-- From one grammar to another: in a part that refers to itself only, rules that are kept are the
same, and the others derive at least as much. -/
theorem transfer {part kept : String → Prop}
    (hkept : ∀ id, part id → kept id → rules' id = rules id)
    (hother : ∀ id, part id → ¬kept id → ∀ text, Derives rules [.rule id] text →
      Derives rules' [.rule id] text)
    (hclosed : ∀ id alternatives, part id → kept id → rules id = some alternatives →
      ∀ alternative ∈ alternatives, Within part kept alternative)
    (hxs : Within part kept xs) (h : Derives rules xs text) : Derives rules' xs text := by
  induction h with
  | nil => exact .nil
  | terminal _ ih => exact .terminal (ih fun s hs => hxs s (List.mem_cons_of_mem _ hs))
  | @rule id alternatives alternative _ _ _ found chosen body _ ihbody ihtail =>
    have htail := ihtail fun s hs => hxs s (List.mem_cons_of_mem _ hs)
    have hid := (hxs _ List.mem_cons_self id rfl).1
    by_cases hk : kept id
    · exact .rule ((hkept id hid hk).trans found) chosen
        (ihbody (hclosed id alternatives hid hk found alternative chosen)) htail
    · exact (hother id hid hk _ (rule_iff.2 ⟨_, found, _, chosen, body⟩)).append htail
  | @exceptRule id _ _ _ _ found outside _ ih =>
    obtain ⟨hid, hk⟩ := hxs _ List.mem_cons_self id rfl
    exact .exceptRule ((hkept id hid (hk rfl)).trans found) outside
      (ih fun s hs => hxs s (List.mem_cons_of_mem _ hs))
  | exceptChars outside _ ih =>
    exact .exceptChars outside (ih fun s hs => hxs s (List.mem_cons_of_mem _ hs))
  | any _ ih => exact .any (ih fun s hs => hxs s (List.mem_cons_of_mem _ hs))

/-- Symbols that do not hold a character themselves, and refer to rules of a part of a grammar. -/
def Without (part : String → Prop) (c : Char) (xs : List GrammarSymbol) : Prop :=
  ∀ symbol ∈ xs, (∃ raw, symbol = .terminal raw ∧ c ∉ raw) ∨ ∃ id, symbol = .rule id ∧ part id

/-- A part of a grammar that refers to itself only derives no text with a character that none of its
terminals holds. -/
theorem not_mem_of_without {part : String → Prop} {c : Char}
    (hclosed : ∀ id alternatives, part id → rules id = some alternatives →
      ∀ alternative ∈ alternatives, Without part c alternative)
    (hxs : Without part c xs) (h : Derives rules xs text) : c ∉ text := by
  induction h with
  | nil => exact List.not_mem_nil
  | terminal _ ih =>
    obtain ⟨hfirst, hrest⟩ := List.forall_mem_cons.1 hxs
    rw [List.mem_append, not_or]
    refine ⟨?_, ih hrest⟩
    rcases hfirst with ⟨raw, he, hraw⟩ | ⟨id, he, -⟩
    · exact GrammarSymbol.terminal.inj he ▸ hraw
    · cases he
  | rule found chosen _ _ ihbody ihtail =>
    obtain ⟨hfirst, hrest⟩ := List.forall_mem_cons.1 hxs
    rw [List.mem_append, not_or]
    refine ⟨?_, ihtail hrest⟩
    rcases hfirst with ⟨raw, he, -⟩ | ⟨id, he, hid⟩
    · cases he
    · cases he
      exact ihbody (hclosed _ _ hid found _ chosen)
  | exceptRule _ _ _ _ => simpa using (List.forall_mem_cons.1 hxs).1
  | exceptChars _ _ _ => simpa using (List.forall_mem_cons.1 hxs).1
  | any _ _ => simpa using (List.forall_mem_cons.1 hxs).1

end Derives

end RecordGrammar
