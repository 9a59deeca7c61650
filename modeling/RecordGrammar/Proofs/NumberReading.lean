import RecordGrammar.JsonNumberReader
import RecordGrammar.Proofs.JsonTexts

/-! # A number that is read is one of the JSON grammar -/

namespace RecordGrammar

theorem int64_fits (k : Int64) : -2 ^ 63 ≤ k.toInt ∧ k.toInt < 2 ^ 64 := by
  have hmin : Int64.minValue.toInt = -2 ^ 63 := by decide
  have hmax : Int64.maxValue.toInt = 2 ^ 63 - 1 := by decide
  have hbelow := Int64.minValue_le_toInt k
  have habove := Int64.toInt_le k
  omega

namespace Numeral

variable {text after : List Char} {digits : List Nat}

/-- The values of decimal digits. -/
def digitValues (text : List Char) : List Nat := text.map fun c => c.toNat - '0'.toNat

theorem readDigits_sound (h : readDigits text = (digits, after)) :
    ∃ token, text = token ++ after ∧ (∀ c ∈ token, c.isDigit = true) ∧
      digits = digitValues token := by
  induction text generalizing digits with
  | nil =>
    cases h
    exact ⟨[], rfl, by simp, rfl⟩
  | cons c text ih =>
    rw [readDigits] at h
    split at h
    · rename_i d hd
      cases hrest : readDigits text with
      | mk more rest =>
        rw [hrest] at h
        cases h
        obtain ⟨token, rfl, htoken, rfl⟩ := ih hrest
        unfold digit? at hd
        split_ifs at hd with hc
        cases hd
        exact ⟨c :: token, rfl, List.forall_mem_cons.2 ⟨hc, htoken⟩, rfl⟩
    · cases h
      exact ⟨[], rfl, by simp, rfl⟩

theorem readFraction_sound (h : readFraction text = some (digits, after)) :
    ∃ token, text = token ++ after ∧
      (token = [] ∧ digits = [] ∨ FractionText token ∧ digits ≠ []) := by
  unfold readFraction at h
  split at h
  · rename_i rest
    cases hrest : readDigits rest with
    | mk more behind =>
      obtain ⟨token, rfl, htoken, rfl⟩ := readDigits_sound hrest
      rw [hrest] at h
      split at h
      · cases h
      · rename_i hne
        cases h
        have hdigits : digitValues token ≠ [] := fun he => hne _ (by rw [he])
        refine ⟨'.' :: token, rfl, .inr ⟨⟨token, ⟨?_, htoken⟩, rfl⟩, hdigits⟩⟩
        rintro rfl
        exact hdigits rfl
  · cases h
    exact ⟨[], rfl, .inl ⟨rfl, rfl⟩⟩

theorem readSign_sound {negative : Bool} (h : readSign text = (negative, after)) :
    ∃ sign, text = sign ++ after ∧ SignText sign := by
  unfold readSign at h
  split at h
  · cases h
    exact ⟨['+'], rfl, .inr (.inl rfl)⟩
  · cases h
    exact ⟨['-'], rfl, .inr (.inr rfl)⟩
  · cases h
    exact ⟨[], rfl, .inl rfl⟩

theorem readExponent_sound {exponent : Option Int} (h : readExponent text = some (exponent, after)) :
    ∃ token, text = token ++ after ∧
      (token = [] ∧ exponent = none ∨ ExponentText token ∧ exponent ≠ none) := by
  unfold readExponent at h
  split at h
  · rename_i c rest
    split_ifs at h with hc
    · cases hsign : readSign rest with
      | mk negative behind =>
        obtain ⟨sign, rfl, hsign'⟩ := readSign_sound hsign
        rw [hsign] at h
        cases hdigits : readDigits behind with
        | mk more last =>
          obtain ⟨token, rfl, htoken, rfl⟩ := readDigits_sound hdigits
          simp only [hdigits] at h
          split at h
          · cases h
          · rename_i hne he
            cases he
            cases h
            refine ⟨c :: (sign ++ token), by simp, .inr ⟨⟨c, sign, token, by simpa using hc, hsign',
              ⟨?_, htoken⟩, rfl⟩, by simp⟩⟩
            rintro rfl
            exact hne rfl
    · cases h
      exact ⟨[], rfl, .inl ⟨rfl, rfl⟩⟩
  · cases h
    exact ⟨[], rfl, .inl ⟨rfl, rfl⟩⟩

/-- How a numeral is written. -/
structure Spells (n : Numeral) (sign whole fraction exponent : List Char) : Prop where
  sign : sign = [] ∧ n.negative = false ∨ sign = ['-'] ∧ n.negative = true
  whole : WholeText whole ∧ n.whole = digitValues whole
  fraction : fraction = [] ∧ n.fraction = [] ∨ FractionText fraction ∧ n.fraction ≠ []
  exponent : exponent = [] ∧ n.exponent = none ∨ ExponentText exponent ∧ n.exponent ≠ none

/-- Reads a numeral behind its sign. -/
def readUnsigned (negative : Bool) (text : List Char) : Option (Numeral × List Char) := do
  let (whole, text) := readDigits text
  if whole.isEmpty || (whole.head? == some 0 && whole.length != 1) then none
  let (fraction, text) ← readFraction text
  let (exponent, text) ← readExponent text
  return (⟨negative, whole, fraction, exponent⟩, text)

theorem read_eq (text : List Char) :
    (∃ rest, text = '-' :: rest ∧ read text = readUnsigned true rest) ∨
      read text = readUnsigned false text := by
  by_cases hminus : ∃ rest, text = '-' :: rest
  · obtain ⟨rest, rfl⟩ := hminus
    exact .inl ⟨rest, rfl, rfl⟩
  · refine .inr ?_
    unfold read
    split
    rename_i negative body hmatch
    split at hmatch
    · exact absurd ⟨_, rfl⟩ hminus
    · cases hmatch
      rfl

theorem readUnsigned_sound {negative : Bool} {n : Numeral}
    (h : readUnsigned negative text = some (n, after)) :
    n.negative = negative ∧ ∃ whole fraction exponent,
      (WholeText whole ∧ n.whole = digitValues whole) ∧
      (fraction = [] ∧ n.fraction = [] ∨ FractionText fraction ∧ n.fraction ≠ []) ∧
      (exponent = [] ∧ n.exponent = none ∨ ExponentText exponent ∧ n.exponent ≠ none) ∧
      text = whole ++ (fraction ++ exponent) ++ after := by
  unfold readUnsigned at h
  cases hwhole : readDigits text with
  | mk digits rest =>
    obtain ⟨whole, rfl, hdigits, rfl⟩ := readDigits_sound hwhole
    simp only [hwhole] at h
    split_ifs at h with hempty
    · cases h
    · obtain ⟨⟨fraction, rest'⟩, hfraction, h⟩ := Option.bind_eq_some_iff.1 h
      obtain ⟨⟨exponent, rest''⟩, hexponent, h⟩ := Option.bind_eq_some_iff.1 h
      cases h
      obtain ⟨fractionText, rfl, hf⟩ := readFraction_sound hfraction
      obtain ⟨exponentText, rfl, he⟩ := readExponent_sound hexponent
      refine ⟨rfl, whole, fractionText, exponentText, ⟨⟨⟨?_, hdigits⟩, fun hzero => ?_⟩, rfl⟩, hf, he,
        by simp⟩
      · rintro rfl
        simp [digitValues] at hempty
      · cases whole with
        | nil => cases hzero
        | cons c whole =>
          cases hzero
          cases whole with
          | nil => rfl
          | cons d whole => simp [digitValues] at hempty

theorem read_sound {n : Numeral} (h : read text = some (n, after)) :
    ∃ sign whole fraction exponent, n.Spells sign whole fraction exponent ∧
      text = sign ++ (whole ++ (fraction ++ exponent)) ++ after := by
  rcases read_eq text with ⟨rest, rfl, he⟩ | he
  · rw [he] at h
    obtain ⟨hsign, whole, fraction, exponent, hw, hf, hx, rfl⟩ := readUnsigned_sound h
    exact ⟨['-'], whole, fraction, exponent, ⟨.inr ⟨rfl, hsign⟩, hw, hf, hx⟩, by simp⟩
  · rw [he] at h
    obtain ⟨hsign, whole, fraction, exponent, hw, hf, hx, rfl⟩ := readUnsigned_sound h
    exact ⟨[], whole, fraction, exponent, ⟨.inl ⟨rfl, hsign⟩, hw, hf, hx⟩, by simp⟩

theorem gather_eq {digits : List Nat} {start : Nat}
    (h : digits.foldl (fun n d => 10 * n + d) start < UInt64.size) :
    gather start digits = (digits.foldl (fun n d => 10 * n + d) start, []) := by
  have hgrows : ∀ (digits : List Nat) (n : Nat), n ≤ digits.foldl (fun n d => 10 * n + d) n := by
    intro digits
    induction digits with
    | nil => exact fun n => le_rfl
    | cons d digits ih => exact fun n => le_trans (by omega) (ih (10 * n + d))
  induction digits generalizing start with
  | nil => rfl
  | cons d digits ih =>
    have hnext : 10 * start + d < UInt64.size := lt_of_le_of_lt (hgrows digits _) h
    rw [gather, if_pos hnext]
    exact ih h

theorem gather_toDigits {n : Nat} (h : n < UInt64.size) :
    gather 0 (digitValues (Nat.toDigits 10 n)) = (n, []) := by
  have hfold : (digitValues (Nat.toDigits 10 n)).foldl (fun n d => 10 * n + d) 0 = n := by
    rw [digitValues, List.foldl_map]
    exact Nat.ofDigitChars_eq_foldl.symm.trans Nat.ofDigitChars_ten_toDigits
  rw [gather_eq (by rw [hfold]; exact h), hfold]

namespace Spells

variable {n : Numeral} {sign whole fraction exponent : List Char}

theorem numberText (h : n.Spells sign whole fraction exponent) :
    NumberText (sign ++ (whole ++ (fraction ++ exponent))) ∧
      (sign ++ (whole ++ (fraction ++ exponent))).head? ≠ some '+' := by
  have hsign : SignText sign := h.sign.imp (·.1) fun h => .inr h.1
  refine ⟨⟨sign, whole, fraction, exponent, hsign, h.whole.1, h.fraction.imp (·.1) (·.1),
    h.exponent.imp (·.1) (·.1), rfl⟩, ?_⟩
  rcases h.sign with ⟨rfl, -⟩ | ⟨rfl, -⟩
  · obtain ⟨⟨hne, hdigits⟩, -⟩ := h.whole.1
    cases whole with
    | nil => exact absurd rfl hne
    | cons c whole =>
      intro hplus
      cases hplus
      exact absurd (hdigits '+' List.mem_cons_self) (by decide)
  · simp

/-- Where the text is that of an integer, only the sign and the whole digits are written. -/
theorem plain (h : n.Spells sign whole fraction exponent) {k : Int}
    (htext : sign ++ (whole ++ (fraction ++ exponent)) = (toString k).toList) :
    whole = Nat.toDigits 10 k.natAbs ∧ n.negative = decide (k < 0) ∧ n.fraction = [] ∧
      n.exponent = none := by
  have hchars : ∀ c ∈ sign ++ (whole ++ (fraction ++ exponent)), c.isDigit = true ∨ c = '-' := by
    rw [htext, toList_toString_int]
    intro c hc
    rcases List.mem_append.1 hc with hc | hc
    · split at hc <;> simp_all
    · exact .inl (Nat.isDigit_of_mem_toDigits (by decide) (by decide) hc)
  obtain ⟨rfl, hf⟩ := h.fraction.resolve_right fun ⟨⟨digits, _, he⟩, _⟩ => by
    exact absurd (hchars '.' (by simp [he])) (by decide)
  obtain ⟨rfl, hx⟩ := h.exponent.resolve_right fun ⟨⟨mark, _, _, hmark, _, _, he⟩, _⟩ => by
    have hmem := hchars mark (by simp [he])
    revert hmem
    have hall : ∀ c ∈ ['e', 'E'], ¬(c.isDigit = true ∨ c = '-') :=
      forall_mem_of_all (by decide)
    exact hall mark hmark
  have hwhole : '-' ∉ whole := fun hc => absurd (h.whole.1.1.2 _ hc) (by decide)
  have hdigits : '-' ∉ Nat.toDigits 10 k.natAbs := fun hc =>
    absurd (Nat.isDigit_of_mem_toDigits (by decide) (by decide) hc) (by decide)
  rw [toList_toString_int, List.append_nil, List.append_nil] at htext
  rcases h.sign with ⟨rfl, hsign⟩ | ⟨rfl, hsign⟩ <;> split_ifs at htext with hk
  · exact absurd (by simpa using congrArg ('-' ∈ ·) htext) hwhole
  · exact ⟨htext, by simp [hsign, hk], hf, hx⟩
  · exact ⟨(List.cons.inj htext).2, by simp [hsign, hk], hf, hx⟩
  · exact absurd (by simpa using congrArg ('-' ∈ ·) htext) hdigits

/-- The text of an integer is read as the integer if it fits 64 bits, with a sign or without. -/
theorem value_eq_int (h : n.Spells sign whole fraction exponent) {k : Int}
    (hfits : -2 ^ 63 ≤ k ∧ k < 2 ^ 64)
    (htext : sign ++ (whole ++ (fraction ++ exponent)) = (toString k).toList) :
    n.value = some (.int k) := by
  obtain ⟨hwhole, hnegative, hfraction, hexponent⟩ := h.plain htext
  have hsize : k.natAbs < UInt64.size := by
    simp only [UInt64.size]
    omega
  have hgather : gather 0 n.whole = (k.natAbs, []) := by
    rw [h.whole.2, hwhole, gather_toDigits hsize]
  unfold value
  rw [hgather]
  by_cases hk : k < 0
  · have hmin : Int64.minValue.toInt = -2 ^ 63 := by decide
    have hmax : Int64.maxValue.toInt = 2 ^ 63 - 1 := by decide
    have hsigned : (int64? k).isSome = true := by
      rw [int64?, if_pos (by omega)]
      rfl
    have hpositive : 0 < k.natAbs := by omega
    have hself : -(k.natAbs : Int) = k := by omega
    generalize k.natAbs = m at hpositive hself ⊢
    simp [hfraction, hexponent, hnegative, hk, hpositive, hself, hsigned]
  · have hself : (k.natAbs : Int) = k := by omega
    generalize k.natAbs = m at hself ⊢
    simp [hfraction, hexponent, hnegative, hk, hself]

theorem value_eq (h : n.Spells sign whole fraction exponent) {k : Int64}
    (htext : sign ++ (whole ++ (fraction ++ exponent)) = (toString k.toInt).toList) :
    n.value = some (.int k.toInt) :=
  h.value_eq_int (int64_fits k) htext

end Spells

/-- What a numeral is read as has the text that was read. -/
theorem jsonText_of_read {n : Numeral} (h : read text = some (n, after)) {number : JsonNumber}
    (hvalue : n.value = some number) :
    ∃ token, text = token ++ after ∧ JsonText (.number number) token := by
  obtain ⟨sign, whole, fraction, exponent, hspells, rfl⟩ := read_sound h
  refine ⟨_, rfl, .number hspells.numberText fun k hk => ?_⟩
  exact Option.some.inj (hvalue.symm.trans (hspells.value_eq hk))

end Numeral

end RecordGrammar
