import RecordGrammar.Proofs.ScalarRendering
import RecordGrammar.Proofs.NumberReading

/-! # A number of the JSON grammar is read

The reader takes as much of a number as it can, so what is behind one must not look like more of
it. Then a number without a plus sign is read whole. -/

namespace RecordGrammar

namespace Numeral

/-- No number goes on with this. -/
def Ends (rest : List Char) : Prop :=
  ∀ c ∈ rest.head?, c.isDigit = false ∧ c ≠ '.' ∧ c ≠ 'e' ∧ c ≠ 'E'

theorem ends_nil : Ends [] := by simp [Ends]

theorem ends_cons {c : Char} (hc : c ∈ [',', ']', '\x7d']) (rest : List Char) :
    Ends (c :: rest) := by
  have hall : ∀ c ∈ [',', ']', '\x7d'], c.isDigit = false ∧ c ≠ '.' ∧ c ≠ 'e' ∧ c ≠ 'E' :=
    forall_mem_of_all (by decide)
  intro d hd
  cases hd
  exact hall c hc

variable {whole fraction exponent text rest : List Char}

theorem readDigits_append {digits : List Char} (h : ∀ c ∈ digits, c.isDigit = true)
    (hrest : ∀ c ∈ rest.head?, c.isDigit = false) :
    readDigits (digits ++ rest) = (digitValues digits, rest) := by
  induction digits with
  | nil =>
    cases rest with
    | nil => rfl
    | cons c rest => simp [readDigits, digit?, hrest c rfl, digitValues]
  | cons c digits ih =>
    obtain ⟨hc, h⟩ := List.forall_mem_cons.1 h
    simp [readDigits, digit?, hc, ih h, digitValues]

theorem exists_cons_of_digits {digits : List Char} (h : DigitsText digits) :
    ∃ d more, digitValues digits = d :: more := by
  obtain ⟨c, rest, rfl⟩ := List.exists_cons_of_ne_nil h.1
  exact ⟨_, _, rfl⟩

theorem readFraction_append (h : fraction = [] ∨ FractionText fraction) :
    ∃ digits, ∀ rest : List Char, (∀ c ∈ rest.head?, c.isDigit = false ∧ c ≠ '.') →
      readFraction (fraction ++ rest) = some (digits, rest) := by
  rcases h with rfl | ⟨digits, hdigits, rfl⟩
  · refine ⟨[], fun rest hrest => ?_⟩
    rw [List.nil_append]
    unfold readFraction
    split
    · exact absurd rfl (hrest '.' rfl).2
    · rfl
  · obtain ⟨d, more, hvalues⟩ := exists_cons_of_digits hdigits
    refine ⟨d :: more, fun rest hrest => ?_⟩
    have hread := readDigits_append hdigits.2 fun c hc => (hrest c hc).1
    rw [List.cons_append, readFraction, hread, hvalues]

theorem readSign_append {sign digits : List Char} (hsign : SignText sign)
    (hdigits : DigitsText digits) : ∃ negative, ∀ rest,
      readSign (sign ++ (digits ++ rest)) = (negative, digits ++ rest) := by
  rcases hsign with rfl | rfl | rfl
  · obtain ⟨c, more, rfl⟩ := List.exists_cons_of_ne_nil hdigits.1
    have hc : c.isDigit = true := hdigits.2 c List.mem_cons_self
    refine ⟨false, fun rest => ?_⟩
    rw [List.nil_append, List.cons_append]
    unfold readSign
    split
    · rename_i hplus
      cases hplus
      exact absurd hc (by decide)
    · rename_i hminus
      cases hminus
      exact absurd hc (by decide)
    · rfl
  · exact ⟨false, fun rest => rfl⟩
  · exact ⟨true, fun rest => rfl⟩

theorem readExponent_append (h : exponent = [] ∨ ExponentText exponent) :
    ∃ power, ∀ rest, Ends rest → readExponent (exponent ++ rest) = some (power, rest) := by
  rcases h with rfl | ⟨mark, sign, digits, hmark, hsign, hdigits, rfl⟩
  · refine ⟨none, fun rest hrest => ?_⟩
    cases rest with
    | nil => rfl
    | cons c rest =>
      obtain ⟨-, -, he, hE⟩ := hrest c rfl
      simp [readExponent, he, hE]
  · obtain ⟨negative, hnegative⟩ := readSign_append hsign hdigits
    obtain ⟨d, more, hvalues⟩ := exists_cons_of_digits hdigits
    have hmark' : mark = 'e' ∨ mark = 'E' := by simpa using hmark
    let power : Int := ofDigits (digitValues digits)
    refine ⟨some (if negative then -power else power), fun rest hrest => ?_⟩
    have hread := readDigits_append hdigits.2 fun c hc => (hrest c hc).1
    rw [List.cons_append, List.append_assoc, readExponent, if_pos hmark', hnegative]
    simp only [hread, hvalues, power]

/-- Neither a digit nor a point is met behind the digits of a fraction. -/
theorem head_exponent (h : exponent = [] ∨ ExponentText exponent) (hrest : Ends rest) :
    ∀ c ∈ (exponent ++ rest).head?, c.isDigit = false ∧ c ≠ '.' := by
  rcases h with rfl | ⟨mark, sign, digits, hmark, -, -, rfl⟩
  · exact fun c hc => ⟨(hrest c hc).1, (hrest c hc).2.1⟩
  · have hall : ∀ c ∈ ['e', 'E'], c.isDigit = false ∧ c ≠ '.' := forall_mem_of_all (by decide)
    intro c hc
    cases hc
    exact hall mark hmark

theorem head_fraction (h : fraction = [] ∨ FractionText fraction)
    (hrest : ∀ c ∈ rest.head?, c.isDigit = false) :
    ∀ c ∈ (fraction ++ rest).head?, c.isDigit = false := by
  rcases h with rfl | ⟨digits, -, rfl⟩
  · exact hrest
  · intro c hc
    cases hc
    rfl

theorem eq_zero_of_value {c : Char} (hc : c.isDigit = true) (h : c.toNat - '0'.toNat = 0) :
    c = '0' := by
  have hbounds : 48 ≤ c.toNat := by
    simp only [Char.isDigit, Bool.and_eq_true, decide_eq_true_eq] at hc
    exact hc.1
  have hzero : '0'.toNat = 48 := rfl
  have hcode : c.toNat = 48 := by omega
  rw [← Char.ofNat_toNat c, hcode]

/-- The digits of the whole part of a number pass the check of the reader. -/
theorem whole_valid (h : WholeText whole) : ((digitValues whole).isEmpty ||
    ((digitValues whole).head? == some 0 && (digitValues whole).length != 1)) = false := by
  obtain ⟨⟨hne, hdigits⟩, hzero⟩ := h
  obtain ⟨c, more, rfl⟩ := List.exists_cons_of_ne_nil hne
  by_cases hc : c.toNat - '0'.toNat = 0
  · obtain rfl := eq_zero_of_value (hdigits c List.mem_cons_self) hc
    rw [hzero rfl]
    rfl
  · simp only [digitValues, List.map_cons, List.isEmpty_cons, List.head?_cons, Bool.false_or,
      Bool.and_eq_false_iff, beq_eq_false_iff_ne, ne_eq, Option.some.injEq]
    exact .inl hc

theorem readUnsigned_append (hwhole : WholeText whole)
    (hfraction : fraction = [] ∨ FractionText fraction)
    (hexponent : exponent = [] ∨ ExponentText exponent) (negative : Bool) :
    ∃ n, ∀ rest, Ends rest →
      readUnsigned negative (whole ++ (fraction ++ exponent) ++ rest) = some (n, rest) := by
  obtain ⟨digits, hdigits⟩ := readFraction_append hfraction
  obtain ⟨power, hpower⟩ := readExponent_append hexponent
  refine ⟨⟨negative, digitValues whole, digits, power⟩, fun rest hrest => ?_⟩
  have hbehind := head_exponent hexponent hrest
  have hread : readDigits (whole ++ (fraction ++ (exponent ++ rest))) =
      (digitValues whole, fraction ++ (exponent ++ rest)) :=
    readDigits_append hwhole.1.2 (head_fraction hfraction fun c hc => (hbehind c hc).1)
  have hvalid : ¬((digitValues whole).isEmpty ||
      ((digitValues whole).head? == some 0 && (digitValues whole).length != 1)) = true := by
    rw [whole_valid hwhole]
    simp
  unfold readUnsigned
  simp only [List.append_assoc, hread, if_neg hvalid]
  exact Option.bind_eq_some_iff.2 ⟨_, hdigits _ hbehind,
    Option.bind_eq_some_iff.2 ⟨_, hpower rest hrest, rfl⟩⟩

/-- A number without a plus sign is read whole, whatever is behind it. -/
theorem read_append (h : NumberText text) (hplus : text.head? ≠ some '+') :
    ∃ n, ∀ rest, Ends rest → read (text ++ rest) = some (n, rest) := by
  obtain ⟨sign, whole, fraction, exponent, hsign, hwhole, hfraction, hexponent, rfl⟩ := h
  rcases hsign with rfl | rfl | rfl
  · obtain ⟨n, hn⟩ := readUnsigned_append hwhole hfraction hexponent false
    refine ⟨n, fun rest hrest => ?_⟩
    rw [List.nil_append]
    rcases read_eq (whole ++ (fraction ++ exponent) ++ rest) with ⟨rest', hminus, -⟩ | hread
    · obtain ⟨c, more, rfl⟩ := List.exists_cons_of_ne_nil hwhole.1.1
      obtain rfl : c = '-' := (List.cons.inj hminus).1
      exact absurd (hwhole.1.2 '-' List.mem_cons_self) (by decide)
    · rw [hread, hn rest hrest]
  · exact absurd rfl hplus
  · obtain ⟨n, hn⟩ := readUnsigned_append hwhole hfraction hexponent true
    exact ⟨n, fun rest hrest => hn rest hrest⟩

end Numeral

theorem int_no_plus (n : Int) : (toString n).toList.head? ≠ some '+' := by
  rw [toList_toString_int]
  split_ifs
  · simp
  · intro hplus
    have hmem : '+' ∈ Nat.toDigits 10 n.natAbs := List.mem_of_mem_head? hplus
    exact absurd (Nat.isDigit_of_mem_toDigits (by decide) (by decide) hmem) (by decide)

theorem double_no_plus (x : FiniteDouble) : x.text.toList.head? ≠ some '+' := by
  obtain ⟨whole, fraction, exponent, ⟨⟨hne, hdigits⟩, -⟩, -, -, hlayout⟩ :=
    Decimal.layout_number _ (@shortestDecimal_digits x.rank.val)
  rw [FiniteDouble.text, String.toList_ofList, hlayout]
  split_ifs
  · simp
  · obtain ⟨c, more, rfl⟩ := List.exists_cons_of_ne_nil hne
    intro hplus
    obtain rfl : c = '+' := Option.some.inj hplus
    exact absurd (hdigits '+' List.mem_cons_self) (by decide)

/-- An integer of 64 bits, with a sign or without, is read as itself. -/
theorem Numeral.read_integer {k : Int} (hfits : -2 ^ 63 ≤ k ∧ k < 2 ^ 64) :
    ∃ n : Numeral, n.value = some (.int k) ∧
      ∀ rest, Ends rest → read ((toString k).toList ++ rest) = some (n, rest) := by
  obtain ⟨n, hn⟩ := read_append (number_of_int k) (int_no_plus k)
  obtain ⟨sign, whole, fraction, exponent, hspells, htext⟩ := read_sound (hn [] ends_nil)
  exact ⟨n, hspells.value_eq_int hfits (by simpa using htext.symm), hn⟩

end RecordGrammar
