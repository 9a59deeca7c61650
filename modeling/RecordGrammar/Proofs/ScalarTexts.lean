import RecordGrammar.Proofs.ContainerTexts

/-! # The texts of strings and numbers -/

namespace RecordGrammar

/-- One character of a JSON string, as the grammar writes it. -/
inductive StringPart : List Char → Prop where
  | plain {c} : c ∉ ['\n', '\t', '\r', '"', '\\'] → StringPart [c]
  | letter {c} : c ∈ JsonFragment.escapeLetters → StringPart ['\\', c]
  | code {units} : units.length = 4 → (∀ c ∈ units, c ∈ JsonFragment.hexDigits) →
      StringPart ('\\' :: 'u' :: units)

/-- Decimal digits, and one of them at least. -/
def DigitsText (text : List Char) : Prop := text ≠ [] ∧ ∀ c ∈ text, c.isDigit = true

/-- Digits that do not start with a zero, unless it is the only one. -/
def WholeText (text : List Char) : Prop := DigitsText text ∧ (text.head? = some '0' → text = ['0'])

def SignText (text : List Char) : Prop := text = [] ∨ text = ['+'] ∨ text = ['-']

def FractionText (text : List Char) : Prop := ∃ digits, DigitsText digits ∧ text = '.' :: digits

def ExponentText (text : List Char) : Prop :=
  ∃ mark sign digits, mark ∈ ['e', 'E'] ∧ SignText sign ∧ DigitsText digits ∧
    text = mark :: (sign ++ digits)

/-- A number as the grammar writes it. -/
def NumberText (text : List Char) : Prop :=
  ∃ sign whole fraction exponent, SignText sign ∧ WholeText whole ∧
    (fraction = [] ∨ FractionText fraction) ∧ (exponent = [] ∨ ExponentText exponent) ∧
      text = sign ++ (whole ++ (fraction ++ exponent))

/-- Characters that are told by a property of small characters. -/
theorem mem_iff_of_small {chars : List Char} {c : Char} (ok : Char → Prop) (bound : Nat)
    (hchars : ∀ c ∈ chars, ok c) (hsmall : ∀ c, ok c → c.toNat < bound)
    (hall : ∀ n < bound, ok (Char.ofNat n) → Char.ofNat n ∈ chars) : c ∈ chars ↔ ok c := by
  refine ⟨hchars c, fun hc => ?_⟩
  simpa using hall c.toNat (hsmall c hc) (by simpa using hc)

theorem mem_decimal_iff {c : Char} : c ∈ "0123456789".toList ↔ c.isDigit = true := by
  refine mem_iff_of_small (·.isDigit = true) 58 ?_ (fun c hc => ?_) ?_
  · exact forall_mem_of_all (by decide)
  · have hbounds : 48 ≤ c.toNat ∧ c.toNat ≤ 57 := by
      simp only [Char.isDigit, Bool.and_eq_true, decide_eq_true_eq] at hc
      exact hc
    omega
  · decide

theorem decimalDigits_texts {rules : RuleReading} {text : List Char} :
    (∃ row ∈ (Layout.ofTerminals decimalDigits).symbols, Derives rules row text) ↔
      ∃ c, c.isDigit = true ∧ text = [c] := by
  have hdigits : decimalDigits = "0123456789".toList.map Char.toString := by decide
  rw [ofTerminals_texts, hdigits]
  simp [← mem_decimal_iff]

theorem Derives.two_rules_iff {rules : RuleReading} {a b : String} {text : List Char} :
    Derives rules [.rule a, .rule b] text ↔ ∃ before after, text = before ++ after ∧
      Derives rules [.rule a] before ∧ Derives rules [.rule b] after := rule_cons_iff

theorem Derives.three_rules_iff {rules : RuleReading} {a b c : String} {text : List Char} :
    Derives rules [.rule a, .rule b, .rule c] text ↔ ∃ before after, text = before ++ after ∧
      Derives rules [.rule a] before ∧ ∃ between last, after = between ++ last ∧
        Derives rules [.rule b] between ∧ Derives rules [.rule c] last :=
  rule_cons_iff.trans (by simp only [two_rules_iff])

/-- The texts of one rule or another. -/
theorem either_texts {rules : RuleReading} {a b : RuleHandle} {text : List Char} :
    (∃ row ∈ Layout.symbols [[.rule a], [.rule b]], Derives rules row text) ↔
      Derives rules [.rule a.id] text ∨ Derives rules [.rule b.id] text := by
  simp [Layout.symbols, Piece.symbol]

/-- The texts of a rule, and of another one behind it or not. -/
theorem optionalTail_texts {rules : RuleReading} {a b : RuleHandle} {text : List Char} :
    (∃ row ∈ Layout.symbols [[.rule a], [.rule a, .rule b]], Derives rules row text) ↔
      Derives rules [.rule a.id] text ∨ ∃ before after, text = before ++ after ∧
        Derives rules [.rule a.id] before ∧ Derives rules [.rule b.id] after := by
  simp [Layout.symbols, Piece.symbol, Derives.two_rules_iff]

theorem Derives.replicate_iff {rules : RuleReading} {id : String} {ok : Char → Prop}
    (hone : ∀ text, Derives rules [.rule id] text ↔ ∃ c, ok c ∧ text = [c]) {n : Nat}
    {text : List Char} : Derives rules (List.replicate n (.rule id)) text ↔
      text.length = n ∧ ∀ c ∈ text, ok c := by
  induction n generalizing text with
  | zero => simp +contextual [nil_iff]
  | succ n ih =>
    rw [List.replicate_succ, rule_cons_iff]
    constructor
    · rintro ⟨before, after, rfl, hbefore, hafter⟩
      obtain ⟨c, hc, rfl⟩ := (hone _).1 hbefore
      obtain ⟨hlength, hafter⟩ := ih.1 hafter
      simpa [hlength] using ⟨hc, hafter⟩
    · rintro ⟨hlength, hall⟩
      cases text with
      | nil => cases hlength
      | cons c text =>
        obtain ⟨hc, hall⟩ := List.forall_mem_cons.1 hall
        exact ⟨[c], text, rfl, (hone _).2 ⟨c, hc, rfl⟩, ih.2 ⟨by simpa using hlength, hall⟩⟩

theorem flatten_singletons (chars : List Char) : (chars.map ([·])).flatten = chars := by
  rw [← List.flatMap_def, List.flatMap_singleton']

theorem Derives.repeated_chars_iff {rules : RuleReading} {row : List GrammarSymbol} {many : String}
    {ok : Char → Prop} (hone : ∀ text, Derives rules row text ↔ ∃ c, ok c ∧ text = [c])
    (hread : rules many = some [row, row ++ [.rule many]]) {text : List Char} :
    Derives rules [.rule many] text ↔ text ≠ [] ∧ ∀ c ∈ text, ok c := by
  rw [repeated_iff hread]
  simp only [hone]
  constructor
  · rintro ⟨parts, hne, hparts, rfl⟩
    obtain ⟨chars, hchars, rfl⟩ := forall_mem_exists_iff.1 hparts
    rw [flatten_singletons]
    exact ⟨by simpa using hne, hchars⟩
  · rintro ⟨hne, hall⟩
    exact ⟨text.map ([·]), by simpa using hne, forall_mem_exists_iff.2 ⟨text, hall, rfl⟩,
      (flatten_singletons text).symm⟩

section

variable {t : RuleTable} {text : List Char}

/-- The texts of a helper of a fragment are those of the rows of its layout. -/
theorem helper_texts_iff {f : Fragment} (hf : t.HoldsRules f) (hlegible : f.Legible)
    (hinputs : ∀ handle ∈ f.inputs, Referable handle.id) {k : Nat} {layout : Layout}
    (hk : f.helpers[k]? = some layout) : t.Texts (helperHandle f.stem k) text ↔
      ∃ row ∈ layout.symbols, Derives t.reading row text := by
  rw [RuleTable.Texts, Derives.rule_iff, hf.reading_helper hlegible hinputs hk]
  simp

section Strings

variable (hf : t.HoldsRules .string)

include hf

private theorem string_helper {k : Nat} {layout : Layout}
    (hk : JsonFragment.stringHelpers[k]? = some layout) :
    t.reading (helperHandle "__bjs" k).id = some layout.symbols :=
  hf.reading_helper trivial (by simp [Fragment.inputs]) hk

private theorem string_helper_iff {k : Nat} {layout : Layout}
    (hk : JsonFragment.stringHelpers[k]? = some layout) :
    t.Texts (helperHandle "__bjs" k) text ↔
      ∃ row ∈ layout.symbols, Derives t.reading row text :=
  helper_texts_iff hf trivial (by simp [Fragment.inputs]) hk

private theorem hexDigit_texts (text : List Char) :
    Derives t.reading [.rule (helperHandle "__bjs" 0).id] text ↔
      ∃ c, c ∈ JsonFragment.hexDigits ∧ text = [c] := by
  refine (string_helper_iff hf rfl).trans (ofTerminals_texts.trans ?_)
  simp

private theorem codeUnit_texts : t.Texts (helperHandle "__bjs" 1) text ↔
    text.length = 4 ∧ ∀ c ∈ text, c ∈ JsonFragment.hexDigits := by
  rw [string_helper_iff hf rfl, ← Derives.replicate_iff (hexDigit_texts hf)]
  simp [Layout.symbols, Piece.symbol]

private theorem escaped_texts : t.Texts (helperHandle "__bjs" 3) text ↔
    (∃ c ∈ JsonFragment.escapeLetters, text = ['\\', c]) ∨
      ∃ units : List Char, units.length = 4 ∧ (∀ c ∈ units, c ∈ JsonFragment.hexDigits) ∧
        text = '\\' :: 'u' :: units := by
  have hcode (text : List Char) : t.Texts (helperHandle "__bjs" 1) text ↔
      text.length = 4 ∧ ∀ c ∈ text, c ∈ JsonFragment.hexDigits := codeUnit_texts hf
  have hescape (text : List Char) : Derives t.reading [.rule (helperHandle "__bjs" 2).id] text ↔
      (∃ c ∈ JsonFragment.escapeLetters, text = [c]) ∨
        ∃ units : List Char, (units.length = 4 ∧ ∀ c ∈ units, c ∈ JsonFragment.hexDigits) ∧
          text = 'u' :: units := by
    refine (string_helper_iff hf rfl).trans ?_
    simp only [Layout.symbols, List.map_append, List.mem_append, or_and_right, exists_or]
    refine or_congr (ofTerminals_texts.trans (by simp)) ?_
    simp [Piece.symbol, Derives.terminal_cons_iff, ← hcode, RuleTable.Texts, and_comm]
  rw [string_helper_iff hf rfl]
  simp only [Layout.symbols, List.map_cons, List.map_nil, List.mem_singleton, exists_eq_left,
    Piece.symbol, Derives.terminal_cons_iff, hescape]
  constructor
  · rintro ⟨_, rfl, ⟨c, hc, rfl⟩ | ⟨units, ⟨hlength, hall⟩, rfl⟩⟩
    · exact .inl ⟨c, hc, rfl⟩
    · exact .inr ⟨units, hlength, hall, rfl⟩
  · rintro (⟨c, hc, rfl⟩ | ⟨units, hlength, hall, rfl⟩)
    · exact ⟨_, rfl, .inl ⟨c, hc, rfl⟩⟩
    · exact ⟨_, rfl, .inr ⟨units, ⟨hlength, hall⟩, rfl⟩⟩

private theorem unescaped_texts : t.Texts (helperHandle "__bjs" 5) text ↔
    ∃ c, c ∉ ['\n', '\t', '\r', '"', '\\'] ∧ text = [c] := by
  have hforbidden := string_helper hf (k := 4) rfl
  rw [string_helper_iff hf rfl]
  simp only [Layout.symbols, List.map_cons, List.map_nil, List.mem_singleton, exists_eq_left,
    Piece.symbol, Derives.exceptRule_iff, hforbidden]
  simp [Layout.ofTerminals, Piece.symbol, JsonFragment.forbiddenInString]

private theorem character_texts : t.Texts (helperHandle "__bjs" 6) text ↔ StringPart text := by
  have hrows : t.Texts (helperHandle "__bjs" 6) text ↔
      t.Texts (helperHandle "__bjs" 3) text ∨ t.Texts (helperHandle "__bjs" 5) text :=
    (string_helper_iff hf rfl).trans either_texts
  rw [hrows, escaped_texts hf, unescaped_texts hf]
  constructor
  · rintro ((⟨c, hc, rfl⟩ | ⟨units, hlength, hall, rfl⟩) | ⟨c, hc, rfl⟩)
    · exact .letter hc
    · exact .code hlength hall
    · exact .plain hc
  · rintro (hc | hc | ⟨hlength, hall⟩)
    · exact .inr ⟨_, hc, rfl⟩
    · exact .inl (.inl ⟨_, hc, rfl⟩)
    · exact .inl (.inr ⟨_, hlength, hall, rfl⟩)

/-- The texts of the string rule: quotes around characters. -/
theorem string_texts : t.Texts Fragment.string.handle text ↔
    ∃ parts : List (List Char), (∀ part ∈ parts, StringPart part) ∧
      text = '"' :: (parts.flatten ++ ['"']) := by
  have hcharacter (part : List Char) :
      Derives t.reading [.rule (helperHandle "__bjs" 6).id] part ↔ StringPart part :=
    character_texts hf
  have hcharacters (text : List Char) :
      Derives t.reading [.rule (helperHandle "__bjs" 7).id] text ↔
        ∃ parts : List (List Char), parts ≠ [] ∧ (∀ part ∈ parts, StringPart part) ∧
          text = parts.flatten := by
    refine (Derives.repeated_iff (string_helper hf (k := 7) rfl)).trans ?_
    exact exists_congr fun parts => and_congr_right fun _ => and_congr_left fun _ =>
      forall₂_congr fun part _ => hcharacter part
  have hsymbols : Fragment.string.layout.symbols =
      [.terminal ['"'] :: ([.rule (helperHandle "__bjs" 7).id] ++ [.terminal ['"']]),
        [.terminal ['"', '"']]] := by
    simp [Fragment.layout, JsonFragment.stringLayout, Layout.symbols, Piece.symbol]
  rw [texts_iff hf trivial (by simp [Fragment.inputs]), hsymbols]
  constructor
  · rintro ⟨row, hrow, ht⟩
    simp only [List.mem_cons, List.not_mem_nil, or_false] at hrow
    rcases hrow with rfl | rfl
    · obtain ⟨inside, hinside, rfl⟩ := Derives.enclosed_iff.1 ht
      obtain ⟨parts, -, hparts, rfl⟩ := (hcharacters inside).1 hinside
      exact ⟨parts, hparts, rfl⟩
    · exact ⟨[], by simp, Derives.terminal_iff.1 ht⟩
  · rintro ⟨parts, hparts, rfl⟩
    cases parts with
    | nil => exact ⟨_, List.mem_cons_of_mem _ List.mem_cons_self, Derives.terminal_iff.2 rfl⟩
    | cons part parts =>
      have hinside := (hcharacters _).2 ⟨_, by simp, hparts, rfl⟩
      exact ⟨_, List.mem_cons_self, Derives.enclosed_iff.2 ⟨_, hinside, rfl⟩⟩

end Strings

section Numbers

variable (hf : t.HoldsRules .number)

include hf

private theorem number_helper_iff {k : Nat} {layout : Layout}
    (hk : JsonFragment.numberHelpers[k]? = some layout) :
    Derives t.reading [.rule (helperHandle "__bjnu" k).id] text ↔
      ∃ row ∈ layout.symbols, Derives t.reading row text :=
  helper_texts_iff hf trivial (by simp [Fragment.inputs]) hk

private theorem nonzero_texts (text : List Char) :
    Derives t.reading [.rule (helperHandle "__bjnu" 1).id] text ↔
      ∃ c, (c.isDigit = true ∧ c ≠ '0') ∧ text = [c] := by
  have hdigits : nonzeroDigits = "123456789".toList.map Char.toString := by decide
  have hmem (c : Char) : c ∈ "123456789".toList ↔ c.isDigit = true ∧ c ≠ '0' := by
    rw [← mem_decimal_iff]
    constructor
    · have hall : ∀ c ∈ "123456789".toList, c ∈ "0123456789".toList ∧ c ≠ '0' :=
        forall_mem_of_all (by decide)
      exact hall c
    · rintro ⟨hc, hne⟩
      simpa [hne] using hc
  refine (number_helper_iff hf rfl).trans (ofTerminals_texts.trans ?_)
  simp [hdigits, ← hmem]

private theorem digit_texts (text : List Char) :
    Derives t.reading [.rule (helperHandle "__bjnu" 3).id] text ↔
      ∃ c, c.isDigit = true ∧ text = [c] := by
  have hrows : Derives t.reading [.rule (helperHandle "__bjnu" 3).id] text ↔
      text = ['0'] ∨ Derives t.reading [.rule (helperHandle "__bjnu" 1).id] text := by
    refine (number_helper_iff hf rfl).trans ?_
    simp [Layout.symbols, Piece.symbol, Derives.terminal_iff]
  rw [hrows, nonzero_texts hf]
  constructor
  · rintro (rfl | ⟨c, hc, rfl⟩)
    · exact ⟨'0', by decide, rfl⟩
    · exact ⟨c, hc.1, rfl⟩
  · rintro ⟨c, hc, rfl⟩
    by_cases hzero : c = '0'
    · exact .inl (by rw [hzero])
    · exact .inr ⟨c, ⟨hc, hzero⟩, rfl⟩

private theorem digits_texts (text : List Char) :
    Derives t.reading [.rule (helperHandle "__bjnu" 4).id] text ↔ DigitsText text := by
  have hread := hf.reading_helper trivial (by simp [Fragment.inputs]) (k := 4) rfl
  exact Derives.repeated_chars_iff (digit_texts hf) hread

private theorem whole_texts (text : List Char) :
    Derives t.reading [.rule (helperHandle "__bjnu" 5).id] text ↔ WholeText text := by
  have hrows : Derives t.reading [.rule (helperHandle "__bjnu" 5).id] text ↔
      Derives t.reading [.rule (helperHandle "__bjnu" 3).id] text ∨
        Derives t.reading [.rule (helperHandle "__bjnu" 1).id,
          .rule (helperHandle "__bjnu" 4).id] text := by
    refine (number_helper_iff hf rfl).trans ?_
    simp [Layout.symbols, Piece.symbol]
  rw [hrows, digit_texts hf, Derives.rule_cons_iff]
  simp only [nonzero_texts hf, digits_texts hf]
  constructor
  · rintro (⟨c, hc, rfl⟩ | ⟨_, digits, rfl, ⟨c, ⟨hc, hzero⟩, rfl⟩, -, hdigits⟩)
    · exact ⟨⟨by simp, by simpa using hc⟩, by simp⟩
    · exact ⟨⟨by simp, by simpa using ⟨hc, hdigits⟩⟩, by simp [hzero]⟩
  · rintro ⟨⟨hne, hall⟩, hzero⟩
    cases text with
    | nil => exact absurd rfl hne
    | cons c digits =>
      obtain ⟨hc, hdigits⟩ := List.forall_mem_cons.1 hall
      cases digits with
      | nil => exact .inl ⟨c, hc, rfl⟩
      | cons d digits =>
        refine .inr ⟨[c], d :: digits, rfl, ⟨c, ⟨hc, fun he => ?_⟩, rfl⟩, by simp, hdigits⟩
        simp [he] at hzero

private theorem sign_texts (text : List Char) :
    Derives t.reading [.rule (helperHandle "__bjnu" 2).id] text ↔ text = ['+'] ∨ text = ['-'] := by
  refine (number_helper_iff hf rfl).trans (ofTerminals_texts.trans ?_)
  simp

private theorem signed_texts (text : List Char) :
    Derives t.reading [.rule (helperHandle "__bjnu" 6).id] text ↔
      ∃ sign whole, SignText sign ∧ WholeText whole ∧ text = sign ++ whole := by
  have hrows : Derives t.reading [.rule (helperHandle "__bjnu" 6).id] text ↔
      Derives t.reading [.rule (helperHandle "__bjnu" 5).id] text ∨
        Derives t.reading [.rule (helperHandle "__bjnu" 2).id,
          .rule (helperHandle "__bjnu" 5).id] text := by
    refine (number_helper_iff hf rfl).trans ?_
    simp [Layout.symbols, Piece.symbol]
  rw [hrows, whole_texts hf, Derives.rule_cons_iff]
  simp only [sign_texts hf, whole_texts hf]
  constructor
  · rintro (hwhole | ⟨sign, whole, rfl, hsign, hwhole⟩)
    · exact ⟨[], text, .inl rfl, hwhole, rfl⟩
    · exact ⟨sign, whole, .inr hsign, hwhole, rfl⟩
  · rintro ⟨sign, whole, rfl | hsign, hwhole, rfl⟩
    · exact .inl hwhole
    · exact .inr ⟨sign, whole, rfl, hsign, hwhole⟩

private theorem exponent_texts (text : List Char) :
    Derives t.reading [.rule (helperHandle "__bjnu" 7).id] text ↔ ExponentText text := by
  have hmark (text : List Char) : Derives t.reading [.rule (helperHandle "__bjnu" 0).id] text ↔
      ∃ mark, mark ∈ ['e', 'E'] ∧ text = [mark] := by
    refine (number_helper_iff hf rfl).trans (ofTerminals_texts.trans ?_)
    simp
  have hrows : Derives t.reading [.rule (helperHandle "__bjnu" 7).id] text ↔
      Derives t.reading [.rule (helperHandle "__bjnu" 0).id,
          .rule (helperHandle "__bjnu" 4).id] text ∨
        Derives t.reading [.rule (helperHandle "__bjnu" 0).id, .rule (helperHandle "__bjnu" 2).id,
          .rule (helperHandle "__bjnu" 4).id] text := by
    refine (number_helper_iff hf rfl).trans ?_
    simp [Layout.symbols, Piece.symbol]
  rw [hrows]
  simp only [Derives.two_rules_iff, Derives.three_rules_iff, hmark, sign_texts hf,
    digits_texts hf]
  constructor
  · rintro (⟨_, digits, rfl, ⟨mark, hm, rfl⟩, hdigits⟩ |
      ⟨_, _, rfl, ⟨mark, hm, rfl⟩, sign, digits, rfl, hsign, hdigits⟩)
    · exact ⟨mark, [], digits, hm, .inl rfl, hdigits, rfl⟩
    · exact ⟨mark, sign, digits, hm, .inr hsign, hdigits, rfl⟩
  · rintro ⟨mark, sign, digits, hm, rfl | hsign, hdigits, rfl⟩
    · exact .inl ⟨[mark], digits, rfl, ⟨mark, hm, rfl⟩, hdigits⟩
    · exact .inr ⟨[mark], _, rfl, ⟨mark, hm, rfl⟩, sign, digits, rfl, hsign, hdigits⟩

private theorem fraction_texts (text : List Char) :
    Derives t.reading [.rule (helperHandle "__bjnu" 8).id] text ↔ FractionText text := by
  refine (number_helper_iff hf rfl).trans ?_
  simp [Layout.symbols, Piece.symbol, Derives.terminal_cons_iff, digits_texts hf, FractionText,
    and_comm]

/-- The texts of the number rule. -/
theorem number_texts : t.Texts Fragment.number.handle text ↔ NumberText text := by
  have hrows : t.Texts Fragment.number.handle text ↔
      Derives t.reading [.rule (helperHandle "__bjnu" 6).id] text ∨
      Derives t.reading [.rule (helperHandle "__bjnu" 6).id,
        .rule (helperHandle "__bjnu" 7).id] text ∨
      Derives t.reading [.rule (helperHandle "__bjnu" 6).id,
        .rule (helperHandle "__bjnu" 8).id] text ∨
      Derives t.reading [.rule (helperHandle "__bjnu" 6).id, .rule (helperHandle "__bjnu" 8).id,
        .rule (helperHandle "__bjnu" 7).id] text := by
    refine (texts_iff hf trivial (by simp [Fragment.inputs])).trans ?_
    simp [Fragment.layout, JsonFragment.numberLayout, Layout.symbols, Piece.symbol]
  rw [hrows]
  simp only [Derives.two_rules_iff, Derives.three_rules_iff, signed_texts hf,
    fraction_texts hf, exponent_texts hf]
  constructor
  · rintro (⟨sign, whole, hsign, hwhole, rfl⟩ |
      ⟨_, exponent, rfl, ⟨sign, whole, hsign, hwhole, rfl⟩, hexponent⟩ |
      ⟨_, fraction, rfl, ⟨sign, whole, hsign, hwhole, rfl⟩, hfraction⟩ |
      ⟨_, _, rfl, ⟨sign, whole, hsign, hwhole, rfl⟩, fraction, exponent, rfl, hfraction, hexponent⟩)
    · exact ⟨sign, whole, [], [], hsign, hwhole, .inl rfl, .inl rfl, by simp⟩
    · exact ⟨sign, whole, [], exponent, hsign, hwhole, .inl rfl, .inr hexponent, by simp⟩
    · exact ⟨sign, whole, fraction, [], hsign, hwhole, .inr hfraction, .inl rfl, by simp⟩
    · exact ⟨sign, whole, fraction, exponent, hsign, hwhole, .inr hfraction, .inr hexponent,
        by simp⟩
  · rintro ⟨sign, whole, fraction, exponent, hsign, hwhole, hfraction, hexponent, rfl⟩
    have hsigned : ∃ sign' whole', SignText sign' ∧ WholeText whole' ∧
        sign ++ whole = sign' ++ whole' := ⟨sign, whole, hsign, hwhole, rfl⟩
    rcases hfraction with rfl | hfraction <;> rcases hexponent with rfl | hexponent
    · exact .inl (by simpa using hsigned)
    · exact .inr (.inl ⟨_, exponent, by simp, hsigned, hexponent⟩)
    · exact .inr (.inr (.inl ⟨_, fraction, by simp, hsigned, hfraction⟩))
    · exact .inr (.inr (.inr ⟨_, _, by simp, hsigned, fraction, exponent, rfl, hfraction,
        hexponent⟩))

end Numbers

end

end RecordGrammar
