import RecordGrammar.Proofs.FragmentCalls
import RecordGrammar.Proofs.ScalarTexts

/-! # JSON numbers, and the numbers that the grammar derives

The number rule allows a plus sign in front, which a JSON number may not have. -/

namespace RecordGrammar

/-- What stands before the point: a single digit, or a digit other than zero with more digits. -/
inductive LeadingDigits : List Char → Prop where
  | one {c} : c.isDigit = true → LeadingDigits [c]
  | more {c digits} : c.isDigit = true → c ≠ '0' → DigitsText digits → LeadingDigits (c :: digits)

/-- An `int` of RFC 8259: a zero, or a digit other than zero with any number of digits. -/
inductive JsonInt : List Char → Prop where
  | zero : JsonInt ['0']
  | nonzero {c digits} : c.isDigit = true → c ≠ '0' → (∀ d ∈ digits, d.isDigit = true) →
      JsonInt (c :: digits)

/-- A sign and a whole part of some kind, a fraction or none, and an exponent or none. -/
def NumberOf (sign whole : List Char → Prop) (text : String) : Prop :=
  ∃ front digits fraction exponent, sign front ∧ whole digits ∧
    (fraction = [] ∨ FractionText fraction) ∧ (exponent = [] ∨ ExponentText exponent) ∧
      text.toList = front ++ (digits ++ (fraction ++ exponent))

/-- A number of RFC 8259. -/
def JsonNumeral (text : String) : Prop :=
  NumberOf (fun sign => sign = [] ∨ sign = ['-']) JsonInt text

/-- A text without the plus sign that it may start with. -/
def withoutPlus (text : String) : String :=
  match text.toList with
  | '+' :: rest => String.ofList rest
  | _ => text

theorem wholeText_cons_iff {c : Char} {digits : List Char} : WholeText (c :: digits) ↔
    c.isDigit = true ∧ (∀ d ∈ digits, d.isDigit = true) ∧ (c = '0' → digits = []) := by
  simp only [WholeText, DigitsText, ne_eq, reduceCtorEq, not_false_eq_true, true_and,
    List.forall_mem_cons, List.head?_cons, Option.some.injEq, List.cons.injEq, and_assoc]
  exact and_congr_right fun _ => and_congr_right fun _ => imp_congr_right fun h => by simp [h]

theorem leadingDigits_iff {whole : List Char} : LeadingDigits whole ↔ WholeText whole := by
  constructor
  · intro h
    cases h with
    | one hc => exact wholeText_cons_iff.2 ⟨hc, by simp, fun _ => rfl⟩
    | more hc hzero hdigits =>
      exact wholeText_cons_iff.2 ⟨hc, hdigits.2, fun h => absurd h hzero⟩
  · intro h
    obtain ⟨c, digits, rfl⟩ := List.exists_cons_of_ne_nil h.1.1
    obtain ⟨hc, hdigits, hzero⟩ := wholeText_cons_iff.1 h
    by_cases hne : digits = []
    · rw [hne]
      exact .one hc
    · exact .more hc (fun h => hne (hzero h)) ⟨hne, hdigits⟩

theorem jsonInt_iff {whole : List Char} : JsonInt whole ↔ WholeText whole := by
  constructor
  · intro h
    cases h with
    | zero => exact wholeText_cons_iff.2 ⟨by decide, by simp, fun _ => rfl⟩
    | nonzero hc hzero hdigits =>
      exact wholeText_cons_iff.2 ⟨hc, hdigits, fun h => absurd h hzero⟩
  · intro h
    obtain ⟨c, digits, rfl⟩ := List.exists_cons_of_ne_nil h.1.1
    obtain ⟨hc, hdigits, hzero⟩ := wholeText_cons_iff.1 h
    by_cases hc0 : c = '0'
    · rw [hzero hc0, hc0]
      exact .zero
    · exact .nonzero hc hc0 hdigits

theorem leadingDigits_eq_jsonInt : LeadingDigits = JsonInt :=
  funext fun _ => propext (leadingDigits_iff.trans jsonInt_iff.symm)

/-- The language of the number rule, in any table that holds the rule with its helpers. -/
theorem derives_number_iff {t : RuleTable} (ht : t.HoldsRules .number) {text : String} :
    t.Derives (declHandle "__bjnu") text ↔ NumberOf SignText LeadingDigits text := by
  have hnumber : t.Texts Fragment.number.handle text.toList ↔ _ := number_texts ht
  simp only [NumberText, ← leadingDigits_iff] at hnumber
  exact hnumber

theorem JsonNumeral.numberOf {text : String} (h : JsonNumeral text) :
    NumberOf SignText LeadingDigits text := by
  obtain ⟨sign, whole, fraction, exponent, hsign, hwhole, hrest⟩ := h
  refine ⟨sign, whole, fraction, exponent, ?_, leadingDigits_eq_jsonInt ▸ hwhole, hrest⟩
  exact hsign.imp_right .inr

theorem withoutPlus_of_head {text : String} (h : text.toList.head? ≠ some '+') :
    withoutPlus text = text := by
  unfold withoutPlus
  split
  · rename_i rest hlist
    simp [hlist] at h
  · rfl

/-- Only a plus sign keeps a text of the number rule from being a JSON number. -/
theorem NumberOf.jsonNumeral {text : String} (h : NumberOf SignText LeadingDigits text) :
    JsonNumeral (withoutPlus text) := by
  obtain ⟨sign, whole, fraction, exponent, hsign, hwhole, hfraction, hexponent, htext⟩ := h
  obtain ⟨c, digits, rfl⟩ := List.exists_cons_of_ne_nil (leadingDigits_iff.1 hwhole).1.1
  have hdigit : c ≠ '+' := by
    rintro rfl
    exact absurd (wholeText_cons_iff.1 (leadingDigits_iff.1 hwhole)).1 (by decide)
  rw [leadingDigits_eq_jsonInt] at hwhole
  rcases hsign with rfl | rfl | rfl
  · rw [withoutPlus_of_head (by simpa [htext] using hdigit)]
    exact ⟨[], _, fraction, exponent, .inl rfl, hwhole, hfraction, hexponent, htext⟩
  · refine ⟨[], _, fraction, exponent, .inl rfl, hwhole, hfraction, hexponent, ?_⟩
    simp [withoutPlus, htext]
  · rw [withoutPlus_of_head (by simp [htext])]
    exact ⟨['-'], _, fraction, exponent, .inr rfl, hwhole, hfraction, hexponent, htext⟩

namespace BlockCall

/-- After any calls the number block derives the numbers that have any sign or none. All the JSON
numbers are among them, and each of them is one once a plus sign in front is dropped. -/
theorem number_derives_iff (calls more : List BlockCall) :
    answer calls .number = some (declHandle "__bjnu") ∧ ∀ text : String,
      ((after (calls ++ .number :: more)).table.Derives (declHandle "__bjnu") text ↔
        NumberOf SignText LeadingDigits text) ∧
      (JsonNumeral text →
        (after (calls ++ .number :: more)).table.Derives (declHandle "__bjnu") text) ∧
      ((after (calls ++ .number :: more)).table.Derives (declHandle "__bjnu") text →
        JsonNumeral (withoutPlus text)) := by
  have hcall : BlockCall.number.fragment? = some .number := rfl
  obtain ⟨hanswer, hrules⟩ := answer_of_unkeyed hcall
    (Layout.Proper.text_ne_empty (.cons (by simp))) rfl calls more
  refine ⟨hanswer, fun text => ⟨derives_number_iff hrules, fun h => ?_, fun h => ?_⟩⟩
  · exact (derives_number_iff hrules).2 h.numberOf
  · exact ((derives_number_iff hrules).1 h).jsonNumeral

end BlockCall

end RecordGrammar
