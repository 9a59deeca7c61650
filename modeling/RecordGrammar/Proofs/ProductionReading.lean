import RecordGrammar.Proofs.FragmentRules

/-! # Productions are read as the symbols they were written from -/

namespace RecordGrammar

namespace Dialect

/-- What is written between the quotes of a terminal, and the text that it stands for. A backslash
unescapes the character behind it, and a quote is only there behind a backslash. -/
inductive Unescapes (quote : Char) : List Char → List Char → Prop where
  | nil : Unescapes quote [] []
  | escaped {c written text} (tail : Unescapes quote written text) :
      Unescapes quote ('\\' :: c :: written) (unescape c :: text)
  | plain {c written text} (hquote : c ≠ quote) (hbackslash : c ≠ '\\')
      (tail : Unescapes quote written text) : Unescapes quote (c :: written) (c :: text)

namespace Unescapes

variable {quote : Char} {written written' text text' : List Char}

theorem append (h : Unescapes quote written text) (h' : Unescapes quote written' text') :
    Unescapes quote (written ++ written') (text ++ text') := by
  induction h with
  | nil => exact h'
  | escaped _ ih => exact .escaped ih
  | plain hquote hbackslash _ ih => exact .plain hquote hbackslash ih

/-- Characters that are each written for themselves are written for their row. -/
theorem flatMap {write : Char → List Char} {chars : List Char}
    (h : ∀ c ∈ chars, Unescapes quote (write c) [c]) :
    Unescapes quote (chars.flatMap write) chars := by
  induction chars with
  | nil => exact .nil
  | cons c chars ih =>
    obtain ⟨hc, hchars⟩ := List.forall_mem_cons.1 h
    exact hc.append (ih hchars)

/-- A text with neither the quote nor a backslash in it is written as it is. -/
theorem self (hquote : quote ∉ text) (hbackslash : '\\' ∉ text) : Unescapes quote text text := by
  induction text with
  | nil => exact .nil
  | cons c text ih =>
    simp only [List.mem_cons, not_or] at hquote hbackslash
    exact .plain (Ne.symm hquote.1) (Ne.symm hbackslash.1) (ih hquote.2 hbackslash.2)

theorem of_escapeChar {c : Char} (hc : c ≠ quote) : Unescapes quote (escapeChar c) [c] := by
  unfold escapeChar
  split
  · exact .escaped .nil
  · exact .escaped .nil
  · exact .escaped .nil
  · exact .escaped .nil
  · exact .plain hc ‹_› .nil

/-- In a key an apostrophe is written behind a backslash of its own. -/
theorem of_keyChar (c : Char) : Unescapes '\''
    ((escapeChar c).flatMap fun d => if d = '\'' then ['\\', '\''] else [d]) [c] := by
  by_cases hc : c = '\''
  · subst hc
    exact .escaped .nil
  · have hsame : ((escapeChar c).flatMap fun d => if d = '\'' then ['\\', '\''] else [d]) =
        escapeChar c := by
      unfold escapeChar
      split <;> simp [hc]
    rw [hsame]
    exact of_escapeChar hc

theorem read (h : Unescapes quote written text) (hescape : quote ≠ '\\') (rest : List Char) :
    readQuoted quote (written ++ quote :: rest) = some (text, rest) := by
  induction h with
  | nil => simp [readQuoted, hescape]
  | escaped _ ih => simp [readQuoted, ih]
  | plain hquote hbackslash _ ih =>
    rw [List.cons_append, readQuoted.eq_3 _ _ _ (fun _ _ h => absurd h hbackslash), if_neg hquote,
      if_neg hbackslash, ih]
    rfl

theorem of_read {input rest : List Char} (h : readQuoted quote input = some (text, rest)) :
    ∃ written, input = written ++ quote :: rest ∧ Unescapes quote written text := by
  fun_induction readQuoted quote input generalizing text with
  | case1 => cases h
  | case2 c input ih =>
    obtain ⟨⟨text, _⟩, hread, he⟩ := Option.map_eq_some_iff.1 h
    cases he
    obtain ⟨written, rfl, hwritten⟩ := ih hread
    exact ⟨'\\' :: c :: written, rfl, .escaped hwritten⟩
  | case3 input =>
    cases h
    exact ⟨[], rfl, .nil⟩
  | case4 => cases h
  | case5 c input _ hquote hbackslash ih =>
    obtain ⟨⟨text, _⟩, hread, he⟩ := Option.map_eq_some_iff.1 h
    cases he
    obtain ⟨written, rfl, hwritten⟩ := ih hread
    exact ⟨c :: written, rfl, .plain hquote hbackslash hwritten⟩

end Unescapes

/-- The reader takes what is written up to the first quote that is not escaped. -/
theorem readQuoted_eq_some_iff {quote : Char} {input text rest : List Char}
    (hescape : quote ≠ '\\') : readQuoted quote input = some (text, rest) ↔
      ∃ written, input = written ++ quote :: rest ∧ Unescapes quote written text :=
  ⟨Unescapes.of_read, fun ⟨_, hinput, h⟩ => hinput ▸ h.read hescape rest⟩

theorem expect_append (pattern rest : List Char) : expect pattern (pattern ++ rest) = some rest := by
  induction pattern with
  | nil => rfl
  | cons c pattern ih => simp [expect, ih]

theorem readUntil_append {stop : Char} {chars : List Char} (h : stop ∉ chars) (rest : List Char) :
    readUntil stop (chars ++ stop :: rest) = some (chars, stop :: rest) := by
  induction chars with
  | nil => simp [readUntil]
  | cons c chars ih =>
    simp only [List.mem_cons, not_or] at h
    simp [readUntil, Ne.symm h.1, ih h.2]

/-- A word before a bracket that does not start with a mark is not taken for the mark. -/
theorem expect_word (mark after : List Char) {word : List Char} (hmark : '>' ∉ mark)
    (hword : ¬mark <+: word) (rest : List Char) :
    expect (mark ++ after) (word ++ '>' :: rest) = none := by
  induction mark generalizing word with
  | nil => exact absurd List.nil_prefix hword
  | cons m mark ih =>
    simp only [List.mem_cons, not_or] at hmark
    cases word with
    | nil => simp [expect, Ne.symm hmark.1]
    | cons c word =>
      by_cases hmc : m = c
      · subst hmc
        simpa [expect] using ih hmark.2 fun h => hword (List.prefix_cons_inj m |>.2 h)
      · simp [expect, hmc]

theorem readSymbol_rule {id : String} (h : Referable id) (rest : List Char) :
    readSymbol ('<' :: (id.toList ++ '>' :: rest)) = some (.rule id, rest) := by
  have hany : expect "any!>".toList (id.toList ++ '>' :: rest) = none :=
    expect_word "any!".toList ['>'] (by decide) h.not_any rest
  have hexcept : expect "except!(".toList (id.toList ++ '>' :: rest) = none :=
    expect_word "except!(".toList [] (by decide) h.not_except rest
  simp only [readSymbol, hany, hexcept, readUntil_append h.closed]
  simp [expect]

theorem readSymbol_except {id : List Char} (hstop : ']' ∉ id) (rest : List Char) :
    readSymbol ("<except!([".toList ++ (id ++ "])>".toList ++ rest)) =
      some (.exceptRule (String.ofList id), rest) := by
  have hid : id ++ "])>".toList ++ rest = id ++ ']' :: (")>".toList ++ rest) := by simp
  rw [hid]
  have hany (text : List Char) : expect "any!>".toList ("except!([".toList ++ text) = none := by
    simp [expect]
  have hexcept (text : List Char) :
      expect "except!(".toList ("except!([".toList ++ text) = some ('[' :: text) := by
    simp [expect]
  have hsplit (text : List Char) :
      "<except!([".toList ++ text = '<' :: ("except!([".toList ++ text) := by simp
  rw [hsplit]
  simp only [readSymbol, hany, hexcept, readExcept, readUntil_append hstop]
  simp [expect]

/-- A text that is read as one symbol, whatever follows it. -/
structure Spells (text : List Char) (symbol : GrammarSymbol) : Prop where
  read (rest : List Char) : readSymbol (text ++ rest) = some (symbol, rest)
  no_bar : '|' ∉ text.head?

/-- A text that is read as alternatives, however many steps are allowed for it. -/
def ReadsAs (text : List Char) (alternatives : Alternatives) : Prop :=
  ∀ fuel, text.length ≤ fuel → readAlternatives fuel text = some alternatives

theorem readsAs_nil : ReadsAs [] [[]] := fun fuel _ => by cases fuel <;> rfl

theorem ReadsAs.bar {text : List Char} {alternatives : Alternatives}
    (h : ReadsAs text alternatives) : ReadsAs ('|' :: text) ([] :: alternatives) := by
  intro fuel hfuel
  cases fuel with
  | zero => simp at hfuel
  | succ fuel => simp [readAlternatives, h fuel (by simpa using hfuel)]

theorem Spells.readsAs {text rest : List Char} {symbol : GrammarSymbol}
    {alternative : List GrammarSymbol} {others : Alternatives} (h : Spells text symbol)
    (hrest : ReadsAs rest (alternative :: others)) :
    ReadsAs (text ++ rest) ((symbol :: alternative) :: others) := by
  intro fuel hfuel
  cases text with
  | nil =>
    have hread := (h.read []).symm.trans rfl
    simp [readSymbol] at hread
  | cons c text =>
    cases fuel with
    | zero => simp at hfuel
    | succ fuel =>
      have hlength : rest.length ≤ fuel := by
        simp only [List.cons_append, List.length_cons, List.length_append] at hfuel
        omega
      have hbar : c ≠ '|' := by
        rintro rfl
        exact h.no_bar rfl
      have hread := h.read rest
      rw [List.cons_append] at hread ⊢
      rw [readAlternatives.eq_4 _ _ (by simp) (fun _ he => hbar (List.cons.inj he).1), hread]
      simp [hrest fuel hlength]

end Dialect

/-- A piece that is read back: no terminal holds both quotes, and the end of every id is found. -/
def Piece.Legible : Piece → Prop
  | .terminal raw => holdsBothQuotes raw = false
  | .key _ _ => True
  | .rule handle => Referable handle.id
  | .except handle => PlainId handle.id

instance (p : Piece) : Decidable p.Legible := by
  cases p <;> unfold Piece.Legible <;> infer_instance

namespace Piece

open Dialect

private theorem spells_quoted {quote : Char} {written text : List Char}
    (hquote : quote = '"' ∨ quote = '\'') (h : Unescapes quote written text) :
    Spells (quote :: (written ++ [quote])) (.terminal text) where
  read rest := by
    rcases hquote with rfl | rfl <;> simp [readSymbol, h.read (by decide)]
  no_bar := by
    rcases hquote with rfl | rfl <;> simp

private theorem spells_terminal {raw : String} (h : holdsBothQuotes raw = false) :
    Spells (RecordGrammar.terminal raw).toList (.terminal raw.toList) := by
  have hraw {quote : Char} (hquote : quote ∉ raw.toList) :
      Unescapes quote (raw.toList.flatMap escapeChar) raw.toList :=
    .flatMap fun _ hc => .of_escapeChar (ne_of_mem_of_not_mem hc hquote)
  by_cases hdouble : '"' ∈ raw.toList
  · have hsingle : '\'' ∉ raw.toList := by simpa [holdsBothQuotes, hdouble] using h
    have htext : (RecordGrammar.terminal raw).toList =
        '\'' :: (raw.toList.flatMap escapeChar ++ ['\'']) := by
      simp [RecordGrammar.terminal, hdouble, escape]
    rw [htext]
    exact spells_quoted (.inr rfl) (hraw hsingle)
  · have htext : (RecordGrammar.terminal raw).toList =
        '"' :: (raw.toList.flatMap escapeChar ++ ['"']) := by
      simp [RecordGrammar.terminal, hdouble, escape]
    rw [htext]
    exact spells_quoted (.inl rfl) (hraw hdouble)

/-- The terminal of a key stands for the JSON text of the name and the separators around it. -/
theorem exists_written_key (name : String) (first : Bool) : ∃ written,
    (JsonFragment.keyTerminal name first).toList = '\'' :: (written ++ ['\'']) ∧
      Unescapes '\'' written (keyText name first) := by
  let mark (c : Char) : List Char := if c = '\'' then ['\\', '\''] else [c]
  let key := (jsonString name).toList.flatMap fun c => (escapeChar c).flatMap mark
  let separator : List Char := if first then [] else [',', ' ']
  refine ⟨separator ++ key ++ [':', ' '], ?_, ?_⟩
  · simp only [JsonFragment.keyTerminal, escape, String.toList_append, String.toList_ofList,
      List.flatMap_assoc, key, separator, mark]
    cases first <;> simp
  · have hseparator : Unescapes '\'' separator separator := by
      cases first <;> exact .self (by simp [separator]) (by simp [separator])
    have hkey : Unescapes '\'' key (jsonString name).toList := .flatMap fun c _ => .of_keyChar c
    exact (hseparator.append hkey).append (.self (by decide) (by decide))

private theorem spells_key (name : String) (first : Bool) :
    Spells (JsonFragment.keyTerminal name first).toList (.terminal (keyText name first)) := by
  obtain ⟨written, hwritten, htext⟩ := exists_written_key name first
  exact hwritten ▸ spells_quoted (.inr rfl) htext

theorem Legible.spells {p : Piece} (h : p.Legible) : Spells p.text.toList p.symbol := by
  cases p with
  | terminal raw => exact spells_terminal h
  | key name first => exact spells_key name first
  | rule handle =>
    refine ⟨fun rest => ?_, by simp [text, RuleHandle.text]⟩
    simpa [text, RuleHandle.text, symbol] using readSymbol_rule h rest
  | except handle =>
    have hid : PlainId handle.id := h
    refine ⟨fun rest => ?_, by simp [text, exceptUnit]⟩
    have hread := readSymbol_except (hid.not_mem (by decide)) rest
    simpa [text, exceptUnit, symbol] using hread

end Piece

namespace Layout

open Dialect

def Legible (layout : Layout) : Prop := ∀ row ∈ layout, ∀ p ∈ row, p.Legible

private theorem readsAs_row {row : List Piece} (h : ∀ p ∈ row, p.Legible) {rest : List Char}
    {alternative : List GrammarSymbol} {others : Alternatives}
    (hrest : ReadsAs rest (alternative :: others)) :
    ReadsAs ((concatenation (row.map Piece.text)).toList ++ rest)
      ((row.map Piece.symbol ++ alternative) :: others) := by
  induction row with
  | nil => simpa [concatenation] using hrest
  | cons p row ih =>
    have hp := (h p List.mem_cons_self).spells
    have htail := ih fun q hq => h q (List.mem_cons_of_mem p hq)
    simpa [concatenation] using hp.readsAs htail

private theorem readsAs_text {layout : Layout} (h : layout.Legible) (hne : layout ≠ []) :
    ReadsAs layout.text.toList layout.symbols := by
  induction layout with
  | nil => exact absurd rfl hne
  | cons row layout ih =>
    have hrow := h row List.mem_cons_self
    cases layout with
    | nil => simpa [text, symbols, alternation] using readsAs_row hrow readsAs_nil
    | cons second layout =>
      have htail := (ih (fun r hr => h r (List.mem_cons_of_mem row hr)) (by simp)).bar
      simpa [text, symbols, alternation] using readsAs_row hrow htail

/-- The production of a legible layout is read as the symbols of the layout. -/
theorem readProduction_text {layout : Layout} (h : layout.Legible) (hne : layout ≠ []) :
    readProduction layout.text = some layout.symbols :=
  readsAs_text h hne _ (Nat.le_refl _)

end Layout

end RecordGrammar
