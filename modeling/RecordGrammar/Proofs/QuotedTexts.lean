import RecordGrammar.Proofs.FragmentCalls
import RecordGrammar.Proofs.ScalarTexts

/-! # JSON strings, and the strings that the grammar derives

The string rule leaves out five characters where a JSON string leaves out the quote, the backslash
and every character below the space. -/

namespace RecordGrammar

def IsHexDigit (c : Char) : Prop :=
  ('0' ≤ c ∧ c ≤ '9') ∨ ('a' ≤ c ∧ c ≤ 'f') ∨ ('A' ≤ c ∧ c ≤ 'F')

instance (c : Char) : Decidable (IsHexDigit c) := inferInstanceAs (Decidable (_ ∨ _))

/-- One character inside quotes: one that may stand there as it is, or an escape. -/
inductive QuotedChar (bare : Char → Prop) : List Char → Prop where
  | bare {c} : bare c → c ≠ '"' → c ≠ '\\' → QuotedChar bare [c]
  | letter {c} : c ∈ ['"', '\\', '/', 'b', 'f', 'n', 'r', 't'] → QuotedChar bare ['\\', c]
  | code {digits} : digits.length = 4 → (∀ c ∈ digits, IsHexDigit c) →
      QuotedChar bare ('\\' :: 'u' :: digits)

/-- Any number of characters between quotes. -/
def QuotedText (bare : Char → Prop) (text : String) : Prop :=
  ∃ parts : List (List Char), (∀ part ∈ parts, QuotedChar bare part) ∧
    text.toList = '"' :: (parts.flatten ++ ['"'])

/-- A string of RFC 8259. -/
def JsonString (text : String) : Prop := QuotedText (0x20 ≤ ·.toNat) text

theorem mem_hexDigits_iff {c : Char} : c ∈ JsonFragment.hexDigits ↔ IsHexDigit c := by
  refine mem_iff_of_small IsHexDigit 103 ?_ (fun c hc => ?_) ?_
  · exact forall_mem_of_all (by decide)
  · have h9 : '9'.toNat = 57 := rfl
    have hf : 'f'.toNat = 102 := rfl
    have hF : 'F'.toNat = 70 := rfl
    simp only [IsHexDigit, Char.le_def, UInt32.le_iff_toNat_le, Char.toNat_val] at hc
    omega
  · decide

theorem stringPart_iff {part : List Char} :
    StringPart part ↔ QuotedChar (· ∉ ['\n', '\t', '\r']) part := by
  constructor
  · intro h
    cases h with
    | plain hc =>
      simp only [List.mem_cons, List.not_mem_nil, or_false, not_or] at hc
      exact .bare (by simp [hc]) (by simp [hc]) (by simp [hc])
    | letter hc => exact .letter (by simp [JsonFragment.escapeLetters] at hc ⊢; tauto)
    | code hlength hunits => exact .code hlength fun c hc => mem_hexDigits_iff.1 (hunits c hc)
  · intro h
    cases h with
    | bare hc hquote hbackslash =>
      simp only [List.mem_cons, List.not_mem_nil, or_false, not_or] at hc
      exact .plain (by simp [hc, hquote, hbackslash])
    | letter hc => exact .letter (by simp [JsonFragment.escapeLetters] at hc ⊢; tauto)
    | code hlength hdigits =>
      exact .code hlength fun c hc => mem_hexDigits_iff.2 (hdigits c hc)

/-- The language of the string rule, in any table that holds the rule with its helpers. -/
theorem derives_string_iff {t : RuleTable} (ht : t.HoldsRules .string) {text : String} :
    t.Derives (declHandle "__bjs") text ↔ QuotedText (· ∉ ['\n', '\t', '\r']) text := by
  have hparts : t.Texts Fragment.string.handle text.toList ↔ _ := string_texts ht
  simp only [stringPart_iff] at hparts
  exact hparts

section Control

variable {bare : Char → Prop} {part : List Char}

theorem QuotedChar.visible (h : QuotedChar (0x20 ≤ ·.toNat) part) :
    ∀ c ∈ part, 0x20 ≤ c.toNat := by
  cases h with
  | bare hc => simpa using hc
  | letter hc =>
    have hall : ∀ c ∈ ['"', '\\', '/', 'b', 'f', 'n', 'r', 't'], 0x20 ≤ c.toNat :=
      forall_mem_of_all (by decide)
    simpa using hall _ hc
  | code _ hdigits =>
    have hall : ∀ c ∈ JsonFragment.hexDigits, 0x20 ≤ c.toNat := forall_mem_of_all (by decide)
    simpa using fun c hc => hall c (mem_hexDigits_iff.2 (hdigits c hc))

theorem QuotedChar.of_bare {bare' : Char → Prop} (h : QuotedChar bare part)
    (hbare : ∀ c ∈ part, bare c → bare' c) : QuotedChar bare' part := by
  cases h with
  | bare hc hquote hbackslash => exact .bare (hbare _ (by simp) hc) hquote hbackslash
  | letter hc => exact .letter hc
  | code hlength hdigits => exact .code hlength hdigits

end Control

/-- JSON strings are the texts of the rule without a character below the space. -/
theorem jsonString_iff {text : String} : JsonString text ↔
    QuotedText (· ∉ ['\n', '\t', '\r']) text ∧ ∀ c ∈ text.toList, 0x20 ≤ c.toNat := by
  constructor
  · rintro ⟨parts, hparts, htext⟩
    refine ⟨⟨parts, fun part hpart => (hparts part hpart).of_bare fun c _ hc => ?_, htext⟩, ?_⟩
    · simp only [List.mem_cons, List.not_mem_nil, or_false]
      rintro (rfl | rfl | rfl) <;> exact absurd hc (by decide)
    · have hinside : ∀ c ∈ parts.flatten, 0x20 ≤ c.toNat := by
        intro c hc
        obtain ⟨part, hpart, hc⟩ := List.mem_flatten.1 hc
        exact (hparts part hpart).visible c hc
      rw [htext]
      simpa [or_imp, forall_and] using hinside
  · rintro ⟨⟨parts, hparts, htext⟩, hvisible⟩
    refine ⟨parts, fun part hpart => (hparts part hpart).of_bare fun c hc _ => hvisible c ?_, htext⟩
    rw [htext]
    exact List.mem_cons_of_mem _ (List.mem_append_left _ (List.mem_flatten.2 ⟨part, hpart, hc⟩))

namespace BlockCall

theorem string_answer (calls more : List BlockCall) :
    answer calls .string = some (declHandle "__bjs") ∧
      (after (calls ++ .string :: more)).table.HoldsRules .string :=
  answer_of_unkeyed (f := .string) rfl (Layout.Proper.text_ne_empty (.cons (by simp))) rfl calls more

/-- After any calls the string block derives the quoted texts in which no newline, tab or carriage
return is left unescaped. Those of them without control characters are the JSON strings. -/
theorem string_derives_iff (calls more : List BlockCall) :
    answer calls .string = some (declHandle "__bjs") ∧ ∀ text : String,
      ((after (calls ++ .string :: more)).table.Derives (declHandle "__bjs") text ↔
        QuotedText (· ∉ ['\n', '\t', '\r']) text) ∧
      (JsonString text ↔
        (after (calls ++ .string :: more)).table.Derives (declHandle "__bjs") text ∧
          ∀ c ∈ text.toList, 0x20 ≤ c.toNat) := by
  obtain ⟨hanswer, hrules⟩ := string_answer calls more
  refine ⟨hanswer, fun text => ⟨derives_string_iff hrules, ?_⟩⟩
  rw [derives_string_iff hrules]
  exact jsonString_iff

/-- A text with a control character between its quotes is derived, and is not a JSON string. -/
theorem string_derives_control : (after [.string]).table.Derives (declHandle "__bjs") "\"\x01\"" ∧
    ¬JsonString "\"\x01\"" := by
  have hpart : QuotedChar (· ∉ ['\n', '\t', '\r']) ['\x01'] :=
    .bare (by decide) (by decide) (by decide)
  refine ⟨(derives_string_iff (string_answer [] []).2).2 ⟨[['\x01']], ?_, rfl⟩, fun h => ?_⟩
  · simpa using hpart
  · exact absurd ((jsonString_iff.1 h).2 '\x01' (by decide)) (by decide)

end BlockCall

end RecordGrammar
