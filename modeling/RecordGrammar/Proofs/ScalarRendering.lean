import RecordGrammar.Proofs.DecimalSearch
import RecordGrammar.Proofs.ScalarTexts
import Mathlib.Data.List.DropRight

/-! # Rendered scalars are texts of their rules -/

namespace RecordGrammar

theorem jsonEscapeChar_part (c : Char) : StringPart (jsonEscapeChar c) := by
  have hdigit (n : Nat) (hn : n < 16) : hexDigit n ∈ JsonFragment.hexDigits := by
    have hall : ∀ k < 16, hexDigit k ∈ JsonFragment.hexDigits := by decide
    exact hall n hn
  unfold jsonEscapeChar
  split_ifs with hquote hbackslash hn hr ht hb hf hsmall
  · exact .letter (by decide)
  · exact .letter (by decide)
  · exact .letter (by decide)
  · exact .letter (by decide)
  · exact .letter (by decide)
  · exact .letter (by decide)
  · exact .letter (by decide)
  · refine .code rfl ?_
    simp only [List.forall_mem_cons, List.not_mem_nil, false_implies, implies_true, and_true]
    exact ⟨by decide, by decide, hdigit _ (by omega), hdigit _ (by omega)⟩
  · exact .plain (by simp [hquote, hbackslash, hn, hr, ht])

/-- The JSON text of a string is one that the string rule writes. -/
theorem jsonString_parts (s : String) : ∃ parts : List (List Char),
    (∀ part ∈ parts, StringPart part) ∧
      (jsonString s).toList = '"' :: (parts.flatten ++ ['"']) := by
  refine ⟨s.toList.map jsonEscapeChar, fun part hpart => ?_, ?_⟩
  · obtain ⟨c, -, rfl⟩ := List.mem_map.1 hpart
    exact jsonEscapeChar_part c
  · simp [jsonString, List.flatMap_def]

theorem toDigits_digits (n : Nat) : DigitsText (Nat.toDigits 10 n) :=
  ⟨Nat.toDigits_ne_nil, fun _ hc => Nat.isDigit_of_mem_toDigits (by decide) (by decide) hc⟩

theorem head_toDigits {n : Nat} (hn : 0 < n) : (Nat.toDigits 10 n).head? ≠ some '0' := by
  induction n using Nat.strongRecOn with
  | ind n ih =>
    by_cases hsmall : n < 10
    · rw [Nat.toDigits_of_lt_base hsmall]
      have hall : ∀ k < 10, 0 < k → [Nat.digitChar k].head? ≠ some '0' := by decide
      exact hall n hsmall hn
    · rw [Nat.toDigits_of_base_le (by decide) (by omega),
        List.head?_append_of_ne_nil _ Nat.toDigits_ne_nil]
      exact ih (n / 10) (by omega) (by omega)

theorem toDigits_whole (n : Nat) : WholeText (Nat.toDigits 10 n) := by
  refine ⟨toDigits_digits n, fun hhead => ?_⟩
  rcases Nat.eq_zero_or_pos n with rfl | hn
  · rfl
  · exact absurd hhead (head_toDigits hn)

theorem number_of_int (n : Int) : NumberText (toString n).toList := by
  refine ⟨if n < 0 then ['-'] else [], Nat.toDigits 10 n.natAbs, [], [], ?_, toDigits_whole _,
    .inl rfl, .inl rfl, by rw [toList_toString_int]; simp⟩
  split_ifs
  · exact .inr (.inr rfl)
  · exact .inl rfl

namespace Decimal

variable {d : Decimal}

/-- The significant digits start as all digits do. -/
theorem significant_digits (d : Decimal) : DigitsText d.significant ∧
    (d.digits ≠ 0 → d.significant.head? ≠ some '0') := by
  have hstart := List.rdropWhile_prefix (decide <| · = '0') (l := Nat.toDigits 10 d.digits)
  have hnil := List.rdropWhile_eq_nil_iff (p := (decide <| · = '0'))
    (l := Nat.toDigits 10 d.digits)
  unfold significant
  unfold List.rdropWhile at hstart hnil
  generalize ((Nat.toDigits 10 d.digits).reverse.dropWhile (· = '0')).reverse = kept at *
  obtain ⟨-, hdigits⟩ := toDigits_digits d.digits
  cases kept with
  | nil =>
    refine ⟨⟨by simp, by simp⟩, fun hne => absurd ?_ (head_toDigits (Nat.pos_of_ne_zero hne))⟩
    cases hchars : Nat.toDigits 10 d.digits with
    | nil => exact absurd hchars Nat.toDigits_ne_nil
    | cons c chars =>
      have hall := hnil.1 rfl c (by simp [hchars])
      simpa using hall
  | cons c kept =>
    refine ⟨⟨by simp, fun x hx => hdigits x (hstart.subset hx)⟩, fun hne => ?_⟩
    obtain ⟨rest, hrest⟩ := hstart
    have hhead := head_toDigits (Nat.pos_of_ne_zero hne)
    rw [← hrest] at hhead
    simpa using hhead

private theorem DigitsText.append {xs ys : List Char} (hx : DigitsText xs)
    (hy : ∀ c ∈ ys, c.isDigit = true) : DigitsText (xs ++ ys) :=
  ⟨by simp [hx.1], fun c hc => (List.mem_append.1 hc).elim (hx.2 c) (hy c)⟩

private theorem zeros_digits (n : Nat) : ∀ c ∈ List.replicate n '0', c.isDigit = true := by
  intro c hc
  rw [List.eq_of_mem_replicate hc]
  decide

/-- A number without a sign. -/
def UnsignedText (text : List Char) : Prop :=
  ∃ whole fraction exponent, WholeText whole ∧ (fraction = [] ∨ FractionText fraction) ∧
    (exponent = [] ∨ ExponentText exponent) ∧ text = whole ++ (fraction ++ exponent)

theorem scientific_number {digits : List Char} (h : DigitsText digits) (e : Int) :
    UnsignedText (scientific digits e) := by
  obtain ⟨hne, hall⟩ := h
  cases digits with
  | nil => exact absurd rfl hne
  | cons c digits =>
    obtain ⟨hc, hall⟩ := List.forall_mem_cons.1 hall
    have hwhole : WholeText [c] := ⟨⟨by simp, by simpa using hc⟩, by simp⟩
    have hexponent : ExponentText ('e' :: (if e < 0 then '-' else '+') ::
        Nat.toDigits 10 e.natAbs) := by
      refine ⟨'e', [if e < 0 then '-' else '+'], _, by simp, ?_, toDigits_digits _, rfl⟩
      split_ifs
      · exact .inr (.inr rfl)
      · exact .inr (.inl rfl)
    refine ⟨[c], if digits.isEmpty then [] else '.' :: digits, _, hwhole, ?_, .inr hexponent, rfl⟩
    cases digits with
    | nil => exact .inl rfl
    | cons d digits => exact .inr ⟨d :: digits, ⟨by simp, hall⟩, rfl⟩

theorem positional_number {digits : List Char} (h : DigitsText digits) {whole : Nat}
    (hwhole : 0 < whole) (hhead : digits.head? = some '0' → digits = ['0'] ∧ whole = 1) :
    UnsignedText (positional digits whole) := by
  obtain ⟨hne, hall⟩ := h
  have hfraction : FractionText
      ('.' :: (if (digits.drop whole).isEmpty then ['0'] else digits.drop whole)) := by
    refine ⟨_, ⟨?_, ?_⟩, rfl⟩
    · split_ifs with hempty
      · simp
      · simpa using hempty
    · split_ifs
      · simp
      · exact fun c hc => hall c (List.mem_of_mem_drop hc)
  refine ⟨digits.take whole ++ List.replicate (whole - digits.length) '0', _, [], ⟨⟨?_, ?_⟩, ?_⟩,
    .inr hfraction, .inl rfl, by simp [positional]⟩
  · simpa [hne] using fun he : whole = 0 => absurd he hwhole.ne'
  · intro c hc
    rcases List.mem_append.1 hc with hc | hc
    · exact hall c (List.mem_of_mem_take hc)
    · exact zeros_digits _ c hc
  · intro hzero
    cases digits with
    | nil => exact absurd rfl hne
    | cons c digits =>
      obtain ⟨k, rfl⟩ := Nat.exists_eq_add_of_lt hwhole
      simp only [Nat.zero_add, List.take_succ_cons, List.cons_append, List.head?_cons] at hzero
      obtain ⟨hdigits, hk⟩ := hhead (by simpa using hzero)
      simp only [List.cons.injEq] at hdigits
      simp [hdigits, show k = 0 by omega]

/-- The layout of a decimal is a number without a sign, unless it is a zero of another magnitude. -/
theorem layout_number (d : Decimal) (h : d.digits ≠ 0 ∨ d.scale = 0) : UnsignedText d.layout := by
  obtain ⟨hdigits, hhead⟩ := significant_digits d
  by_cases hlarge : d.magnitude < -5 ∨ 15 < d.magnitude
  · have hlayout : d.layout = scientific d.significant d.magnitude := by simp [layout, hlarge]
    rw [hlayout]
    exact scientific_number hdigits _
  · by_cases hsmall : d.magnitude < 0
    · have hlayout : d.layout = '0' :: '.' ::
          (List.replicate ((-d.magnitude).toNat - 1) '0' ++ d.significant) := by
        simp [layout, hlarge, hsmall]
      have hfraction : DigitsText
          (List.replicate ((-d.magnitude).toNat - 1) '0' ++ d.significant) :=
        ⟨by simp [hdigits.1], fun c hc =>
          (List.mem_append.1 hc).elim (zeros_digits _ c) (hdigits.2 c)⟩
      rw [hlayout]
      exact ⟨['0'], _, [], ⟨⟨by simp, by simp⟩, by simp⟩, .inr ⟨_, hfraction, rfl⟩, .inl rfl,
        by simp⟩
    · have hlayout : d.layout = positional d.significant (d.magnitude.toNat + 1) := by
        simp [layout, hlarge, hsmall]
      rw [hlayout]
      refine positional_number hdigits (by omega) fun hzero => ?_
      have hd : d.digits = 0 := by
        by_contra hne
        exact hhead hne hzero
      have hscale := h.resolve_left fun hne => hne hd
      simp [significant, magnitude, hd, hscale]

end Decimal

/-- Every finite double prints as a number that the number rule writes. -/
theorem number_of_double (x : FiniteDouble) : NumberText x.text.toList := by
  obtain ⟨whole, fraction, exponent, hwhole, hfraction, hexponent, hlayout⟩ :=
    Decimal.layout_number _ (@shortestDecimal_digits x.rank.val)
  refine ⟨if x.negative then ['-'] else [], whole, fraction, exponent, ?_, hwhole, hfraction,
    hexponent, by rw [FiniteDouble.text, String.toList_ofList, hlayout]⟩
  split_ifs
  · exact .inr (.inr rfl)
  · exact .inl rfl

namespace Magnitude

theorem halfEven_le (a b : Nat) : halfEven a b ≤ a / b + 1 := by
  unfold halfEven
  simp only
  split_ifs <;> omega

theorem floorLog2_one (a : Nat) : floorLog2 a 1 = a.log2 ∨ floorLog2 a 1 = a.log2 - 1 := by
  have hone : Nat.log2 1 = 0 := by decide
  unfold floorLog2
  rw [hone]
  simp only [Nat.cast_zero, sub_zero]
  split_ifs
  · exact .inr rfl
  · exact .inl rfl

/-- A whole number of 64 bits is far below the overflow. -/
theorem round_lt_limit {a : Nat} (ha : a < 2 ^ 64) : round a 1 < limit := by
  unfold round
  split_ifs with hzero
  · decide
  · have hlog : a.log2 < 64 := (Nat.log2_lt hzero).2 ha
    have hself : a < 2 ^ (a.log2 + 1) := Nat.lt_log2_self
    have hfloor := floorLog2_one a
    generalize floorLog2 a 1 = floor at hfloor ⊢
    simp only [Nat.pow_eq, Nat.one_mul]
    generalize he : max (-1074) (floor - 52) = e
    have hquotient : a * 2 ^ (-e).toNat / 2 ^ e.toNat < 2 ^ 54 := by
      refine Nat.div_lt_of_lt_mul ?_
      calc a * 2 ^ (-e).toNat < 2 ^ (a.log2 + 1) * 2 ^ (-e).toNat :=
            Nat.mul_lt_mul_of_pos_right hself (Nat.pow_pos (by decide))
        _ = 2 ^ (a.log2 + 1 + (-e).toNat) := (Nat.pow_add _ _ _).symm
        _ ≤ 2 ^ (e.toNat + 54) := Nat.pow_le_pow_right (by decide) (by omega)
        _ = 2 ^ e.toNat * 2 ^ 54 := Nat.pow_add _ _ _
    have hround := halfEven_le (a * 2 ^ (-e).toNat) (2 ^ e.toNat)
    have hscale : (e + 1074).toNat * binade ≤ 1085 * binade :=
      Nat.mul_le_mul_right _ (by omega)
    unfold limit binade at *
    omega

end Magnitude

theorem double_of_int {n : Int} (h : n.natAbs < 2 ^ 64) : ∃ x, Double.ofInt n = .finite x := by
  have hlimit := Magnitude.round_lt_limit h
  exact ⟨⟨decide (n < 0), ⟨_, hlimit⟩⟩,
    by simp [Double.ofInt, Double.ofRank, FiniteDouble.ofRank?, hlimit]⟩

end RecordGrammar
