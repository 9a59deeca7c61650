import RecordGrammar.Proofs.ScalarTexts

/-! # The texts of a mask

A mask derives the texts of its length that have a digit at each percent sign and its own character
elsewhere. Inside quotes these are JSON strings only if no character of the mask is escaped in one. -/

namespace RecordGrammar

open FormatFragment

/-- What may stand in the place of a character of a mask. -/
def Fills (place c : Char) : Prop := if place = '%' then c.isDigit = true else c = place

/-- A text with a digit at each percent sign of a mask and the mask's own character elsewhere. -/
def Masked (mask text : String) : Prop := List.Forall₂ Fills mask.toList text.toList

instance (place c : Char) : Decidable (Fills place c) := inferInstanceAs (Decidable (ite _ _ _))

instance (mask text : String) : Decidable (Masked mask text) :=
  inferInstanceAs (Decidable (List.Forall₂ _ _ _))

section Rows

variable {rules : RuleReading} {text : List Char}

/-- The first stretch of a mask is a terminal in front of what the others give. -/
theorem maskRow_cons (segments : List (List Char)) : ∃ more, ∀ segment,
    maskRow (segment :: segments) = segmentRow segment ++ more := by
  cases segments with
  | nil => exact ⟨[], fun segment => by simp [maskRow]⟩
  | cons second rest => exact ⟨.rule digitHandle :: maskRow (second :: rest), fun _ => rfl⟩

theorem segmentRow_iff {segment : List Char} {more : List GrammarSymbol} :
    Derives rules ((segmentRow segment).map Piece.symbol ++ more) text ↔
      ∃ after, text = segment ++ after ∧ Derives rules more after := by
  cases segment with
  | nil => simp [segmentRow]
  | cons c segment => simp [segmentRow, Piece.symbol, Derives.terminal_cons_iff]

theorem maskRow_percent (chars : List Char) : maskRow (maskSegments ('%' :: chars)) =
    .rule digitHandle :: maskRow (maskSegments chars) := by
  obtain ⟨segment, segments, hsegments⟩ := List.exists_cons_of_ne_nil (maskSegments_ne_nil chars)
  simp [maskSegments, hsegments, maskRow, segmentRow]

/-- A character that is no percent sign stands in front of what the rest of the mask derives. -/
theorem maskRow_char_iff {place : Char} (hplace : place ≠ '%') {chars : List Char} :
    Derives rules ((maskRow (maskSegments (place :: chars))).map Piece.symbol) text ↔
      ∃ after, text = place :: after ∧
        Derives rules ((maskRow (maskSegments chars)).map Piece.symbol) after := by
  obtain ⟨segment, segments, hsegments⟩ := List.exists_cons_of_ne_nil (maskSegments_ne_nil chars)
  obtain ⟨more, hmore⟩ := maskRow_cons segments
  have hrow : maskRow (maskSegments (place :: chars)) = segmentRow (place :: segment) ++ more := by
    simp [maskSegments, hplace, hsegments, hmore]
  rw [hrow, hsegments, hmore, List.map_append, List.map_append]
  simp only [segmentRow_iff]
  constructor
  · rintro ⟨after, rfl, hafter⟩
    exact ⟨segment ++ after, rfl, after, rfl, hafter⟩
  · rintro ⟨_, rfl, after, rfl, hafter⟩
    exact ⟨after, rfl, hafter⟩

/-- The row of a mask derives what fills the mask, if the digit rule derives the digits. -/
theorem maskRow_iff {chars : List Char} (hdigit : ∀ text,
      Derives rules [.rule digitHandle.id] text ↔ ∃ c, c.isDigit = true ∧ text = [c]) :
    Derives rules ((maskRow (maskSegments chars)).map Piece.symbol) text ↔
      List.Forall₂ Fills chars text := by
  induction chars generalizing text with
  | nil => simp [maskSegments, maskRow, segmentRow, Derives.nil_iff]
  | cons place chars ih =>
    rw [List.forall₂_cons_left_iff]
    by_cases hplace : place = '%'
    · subst hplace
      rw [maskRow_percent, List.map_cons, Piece.symbol, Derives.rule_cons_iff]
      simp only [hdigit, ih, Fills, if_true]
      constructor
      · rintro ⟨_, after, rfl, ⟨c, hc, rfl⟩, hafter⟩
        exact ⟨c, after, hc, hafter, rfl⟩
      · rintro ⟨c, after, hc, hafter, rfl⟩
        exact ⟨[c], after, rfl, ⟨c, hc, rfl⟩, hafter⟩
    · simp only [maskRow_char_iff hplace, ih, Fills, if_neg hplace]
      constructor
      · rintro ⟨after, rfl, hafter⟩
        exact ⟨place, after, rfl, hafter, rfl⟩
      · rintro ⟨_, after, rfl, hafter, rfl⟩
        exact ⟨after, rfl, hafter⟩

end Rows

section Fragments

variable {t : RuleTable} {mask : String} {text : List Char}

theorem digitRule_texts (h : t.rule? digitHandle.id = some digitRule) (text : List Char) :
    Derives t.reading [.rule digitHandle.id] text ↔ ∃ c, c.isDigit = true ∧ text = [c] := by
  have hread : t.reading digitHandle.id = some (Layout.ofTerminals decimalDigits).symbols := by
    rw [RuleTable.reading_of_rule? h]
    exact Layout.readProduction_text (by decide +kernel) (by simp [Layout.ofTerminals, decimalDigits])
  have hrows : Derives t.reading [.rule digitHandle.id] text ↔
      ∃ row ∈ (Layout.ofTerminals decimalDigits).symbols, Derives t.reading row text := by
    simp [Derives.rule_iff, hread]
  exact hrows.trans decimalDigits_texts

theorem mask_texts (hf : t.HoldsRules (.maskedTime mask)) (hclear : MaskClear mask) :
    t.Texts (Fragment.maskedTime mask).handle text ↔ List.Forall₂ Fills mask.toList text := by
  have hdigit := digitRule_texts (hf digitRule (by simp [Fragment.shared]))
  rw [texts_iff hf hclear (by simp [Fragment.inputs]), ← maskRow_iff hdigit]
  simp [Fragment.layout, maskLayout, Layout.symbols]

theorem inQuotes_texts {inner : RuleHandle} (hf : t.HoldsRules (.inQuotes inner))
    (hinner : Referable inner.id) : t.Texts (Fragment.inQuotes inner).handle text ↔
      ∃ inside, t.Texts inner inside ∧ text = '"' :: (inside ++ ['"']) := by
  have hsymbols : (Fragment.inQuotes inner).layout.symbols =
      [.terminal ['"'] :: ([.rule inner.id] ++ [.terminal ['"']])] := by
    simp [Fragment.layout, JsonFragment.inQuotesLayout, Layout.symbols, Piece.symbol]
  rw [texts_iff hf trivial (by simpa [Fragment.inputs] using hinner), hsymbols]
  simp only [List.mem_singleton, exists_eq_left]
  exact Derives.enclosed_iff

end Fragments

section Escapes

theorem jsonEscapeChar_length (c : Char) :
    jsonEscapeChar c = [c] ∨ 1 < (jsonEscapeChar c).length := by
  unfold jsonEscapeChar
  split_ifs <;> simp

theorem length_le_escaped (chars : List Char) :
    chars.length ≤ (chars.flatMap jsonEscapeChar).length := by
  induction chars with
  | nil => exact Nat.le_refl 0
  | cons c chars ih =>
    rw [List.flatMap_cons, List.length_append, List.length_cons]
    rcases jsonEscapeChar_length c with hc | hc
    · rw [hc, List.length_singleton]
      omega
    · omega

/-- A text that gets no longer in a JSON string has nothing to escape. -/
theorem unescaped_of_length_le {chars : List Char}
    (h : (chars.flatMap jsonEscapeChar).length ≤ chars.length) :
    ∀ c ∈ chars, jsonEscapeChar c = [c] := by
  induction chars with
  | nil => simp
  | cons c chars ih =>
    rw [List.flatMap_cons, List.length_append, List.length_cons] at h
    have hrest := length_le_escaped chars
    rcases jsonEscapeChar_length c with hc | hc
    · rw [hc, List.length_singleton] at h
      exact List.forall_mem_cons.2 ⟨hc, ih (by omega)⟩
    · omega

theorem jsonString_eq {text : String} (h : ∀ c ∈ text.toList, jsonEscapeChar c = [c]) :
    jsonString text = "\"" ++ text ++ "\"" := by
  have hchars : text.toList.flatMap jsonEscapeChar = text.toList := by
    rw [List.flatMap_congr h, List.flatMap_singleton']
  apply String.toList_inj.1
  simp [jsonString, hchars]

variable {mask text : String}

/-- What fills a mask has to be escaped in a JSON string only where the mask has to be. -/
theorem Masked.unescaped (h : Masked mask text)
    (hmask : ∀ c ∈ mask.toList, jsonEscapeChar c = [c]) :
    ∀ c ∈ text.toList, jsonEscapeChar c = [c] := by
  have hall : ∀ c ∈ "0123456789".toList, jsonEscapeChar c = [c] := forall_mem_of_all (by decide)
  intro c hc
  obtain ⟨place, hplace, hfills⟩ := exists_of_forall₂ h c hc
  unfold Fills at hfills
  split_ifs at hfills with hpercent
  · exact hall c (mem_decimal_iff.2 hfills)
  · exact hfills ▸ hmask place hplace

/-- The text with zeros in a mask. -/
def zeroed (mask : String) : String :=
  String.ofList (mask.toList.map fun c => if c = '%' then '0' else c)

theorem masked_zeroed (mask : String) : Masked mask (zeroed mask) := by
  rw [Masked, zeroed, String.toList_ofList, List.forall₂_map_right_iff, List.forall₂_same]
  intro c _
  unfold Fills
  split_ifs
  · rfl
  · rfl

/-- The masked texts in quotes are JSON strings of the masked texts just where a JSON string escapes
no character of the mask. -/
theorem masked_json_iff :
    (∀ text, (∃ inside, Masked mask inside ∧ text = "\"" ++ inside ++ "\"") ↔
      ∃ inside, Masked mask inside ∧ text = jsonString inside) ↔
    ∀ c ∈ mask.toList, jsonEscapeChar c = [c] := by
  constructor
  · intro h c hc
    obtain ⟨inside, hinside, htext⟩ := (h _).2 ⟨zeroed mask, masked_zeroed mask, rfl⟩
    have hescaped : (zeroed mask).toList.flatMap jsonEscapeChar = inside.toList := by
      simpa [jsonString, ← String.toList_inj] using htext
    have hlength : inside.toList.length = (zeroed mask).toList.length :=
      hinside.length_eq.symm.trans (masked_zeroed mask).length_eq
    have hzeroed := unescaped_of_length_le (by rw [hescaped]; exact Nat.le_of_eq hlength)
    by_cases hpercent : c = '%'
    · rw [hpercent]
      rfl
    · refine hzeroed c ?_
      rw [zeroed, String.toList_ofList]
      exact List.mem_map.2 ⟨c, hc, if_neg hpercent⟩
  · intro hmask text
    refine exists_congr fun inside => and_congr_right fun hinside => ?_
    rw [jsonString_eq (hinside.unescaped hmask)]

end Escapes

end RecordGrammar
