import RecordGrammar.ShortestDecimal
import Mathlib.Tactic.Linarith
import Mathlib.Tactic.Ring
import Mathlib.Algebra.Order.Field.Rat

/-! # The search for the shortest decimal finds one

Seventeen digits are a finer grid than the doubles, so that a point of it always reads back. -/

namespace RecordGrammar

namespace Magnitude

theorem significand_pos {rank : Nat} (h : 0 < rank) : 0 < significand rank := by
  unfold significand binade
  split_ifs <;> omega

theorem significand_lt (rank : Nat) : significand rank < 2 * binade := by
  have hmod : rank % binade < binade := Nat.mod_lt _ (by decide)
  unfold significand
  split_ifs <;> omega

end Magnitude

namespace ShortestDecimal

open Magnitude

theorem lt_pow_decimalLength (n : Nat) : n < 10 ^ decimalLength n := by
  unfold decimalLength
  split_ifs with hn
  · omega
  · exact (Nat.length_toDigits_le_iff (by decide) Nat.length_toDigits_pos).1 (Nat.le_refl _)

theorem pow_decimalLength_le {n : Nat} (hn : n ≠ 0) : 10 ^ (decimalLength n - 1) ≤ n := by
  rw [decimalLength, if_neg hn]
  by_cases hone : (Nat.toDigits 10 n).length - 1 = 0
  · rw [hone]
    omega
  · have hlength := Nat.length_toDigits_le_iff (b := 10) (n := n) (by decide)
      (Nat.pos_of_ne_zero hone)
    exact Nat.le_of_not_lt fun hlt => by
      have := hlength.2 hlt
      omega

/-- The leading digit of a quotient counts a power of ten that is not above it. -/
theorem leadingExponent_le {a b : Nat} (ha : 0 < a) (hb : 0 < b) :
    (10 : ℚ) ^ leadingExponent a b * b ≤ a := by
  unfold leadingExponent
  split_ifs with hle
  · have hquotient : a / b ≠ 0 := (Nat.div_pos hle hb).ne'
    have hlength : 0 < decimalLength (a / b) := by
      rw [decimalLength, if_neg hquotient]
      exact Nat.length_toDigits_pos
    have hpow : 10 ^ (decimalLength (a / b) - 1) * b ≤ a :=
      (Nat.mul_le_mul_right b (pow_decimalLength_le hquotient)).trans (Nat.div_mul_le_self a b)
    have hcast : ((decimalLength (a / b) : Nat) : Int) - 1 =
        ((decimalLength (a / b) - 1 : Nat) : Int) := by omega
    rw [hcast, zpow_natCast]
    exact_mod_cast hpow
  · have hlt : b ≤ a * 10 ^ decimalLength ((b - 1) / a) := by
      have h := Nat.lt_mul_of_div_lt (lt_pow_decimalLength ((b - 1) / a)) ha
      rw [Nat.mul_comm] at h
      omega
    rw [zpow_neg, zpow_natCast, inv_mul_le_iff₀ (by positivity), mul_comm]
    exact_mod_cast hlt

theorem pow_toNat (x : ℚ) (hx : x ≠ 0) (e : Int) : x ^ e.toNat = x ^ e * x ^ (-e).toNat := by
  rcases Int.le_total 0 e with he | he
  · rw [show (-e).toNat = 0 by omega, pow_zero, mul_one, ← zpow_natCast, Int.toNat_of_nonneg he]
  · rw [show e.toNat = 0 by omega, pow_zero, ← zpow_natCast, Int.toNat_of_nonneg (by omega),
      ← zpow_add₀ hx, add_neg_cancel, zpow_zero]

/-- Sixteen digits behind the leading one, a step of the grid is that much smaller than the
double. -/
theorem tens_le {rank : Nat} (h : 0 < rank) :
    (Grid.of rank (leadingExponent (ratio rank).1 (ratio rank).2 - 16)).tens * 10 ^ 16 ≤
      4 * significand rank *
        (Grid.of rank (leadingExponent (ratio rank).1 (ratio rank).2 - 16)).quarters := by
  have hm := significand_pos h
  have hlead := leadingExponent_le (a := (ratio rank).1) (b := (ratio rank).2)
    (Nat.mul_pos hm (Nat.pow_pos (by decide))) (Nat.pow_pos (by decide))
  generalize leadingExponent (ratio rank).1 (ratio rank).2 = E at hlead ⊢
  generalize hx : exponent rank = x
  have hvalue : (10 : ℚ) ^ E ≤ significand rank * 2 ^ x := by
    simp only [ratio, hx, Nat.pow_eq, Nat.cast_mul, Nat.cast_pow, Nat.cast_ofNat,
      pow_toNat 2 (by norm_num) x, ← mul_assoc] at hlead
    exact le_of_mul_le_mul_right hlead (by positivity)
  have hten : (10 : ℚ) ^ (E - 16) * 10 ^ 16 = 10 ^ E := by
    rw [← zpow_natCast, ← zpow_add₀ (by norm_num)]
    simp
  have htwo : (2 : ℚ) ^ x = 4 * 2 ^ (x - 2) := by
    rw [show (4 : ℚ) = 2 ^ (2 : Int) by norm_num, ← zpow_add₀ (by norm_num)]
    simp
  suffices hcast : (((Grid.of rank (E - 16)).tens * 10 ^ 16 : Nat) : ℚ) ≤
      ((4 * significand rank * (Grid.of rank (E - 16)).quarters : Nat) : ℚ) by
    exact_mod_cast hcast
  simp only [Grid.of, hx, Nat.pow_eq, Nat.cast_mul, Nat.cast_pow, Nat.cast_ofNat,
    pow_toNat 10 (by norm_num) (E - 16), pow_toNat 2 (by norm_num) (x - 2)]
  have hpos : (0 : ℚ) ≤ 10 ^ (-(E - 16)).toNat * 2 ^ (-(x - 2)).toNat := by positivity
  calc (10 : ℚ) ^ (E - 16) * 10 ^ (-(E - 16)).toNat * 2 ^ (-(x - 2)).toNat * 10 ^ 16
      = 10 ^ E * (10 ^ (-(E - 16)).toNat * 2 ^ (-(x - 2)).toNat) := by rw [← hten]; ring
    _ ≤ significand rank * 2 ^ x * (10 ^ (-(E - 16)).toNat * 2 ^ (-(x - 2)).toNat) :=
        mul_le_mul_of_nonneg_right hvalue hpos
    _ = 4 * significand rank *
        (2 ^ (x - 2) * 2 ^ (-(x - 2)).toNat * 10 ^ (-(E - 16)).toNat) := by rw [htwo]; ring

theorem readsBack_iff {rank : Nat} {grid : Grid} {count : Nat} : readsBack rank grid count = true ↔
    if significand rank % 2 = 0 then
      (4 * significand rank - below rank) * grid.quarters ≤ count * grid.tens ∧
        count * grid.tens ≤ (4 * significand rank + 2) * grid.quarters
    else (4 * significand rank - below rank) * grid.quarters < count * grid.tens ∧
      count * grid.tens < (4 * significand rank + 2) * grid.quarters := by
  by_cases heven : significand rank % 2 = 0 <;> simp [readsBack, heven]

theorem below_le (rank : Nat) : below rank ≤ 2 := by
  unfold below
  split_ifs <;> omega

theorem Grid.quarters_pos (rank : Nat) (scale : Int) : 0 < (Grid.of rank scale).quarters :=
  Nat.mul_pos (Nat.pow_pos (by decide)) (Nat.pow_pos (by decide))

theorem Grid.tens_pos (rank : Nat) (scale : Int) : 0 < (Grid.of rank scale).tens :=
  Nat.mul_pos (Nat.pow_pos (by decide)) (Nat.pow_pos (by decide))

/-- Zero does not read back to a double that is not zero. -/
theorem count_pos_of_readsBack {rank : Nat} (h : 0 < rank) {scale : Int} {count : Nat}
    (hread : readsBack rank (Grid.of rank scale) count = true) : 0 < count := by
  have hm := significand_pos h
  have hbelow := below_le rank
  have hlow : 0 < (4 * significand rank - below rank) * (Grid.of rank scale).quarters :=
    Nat.mul_pos (by omega) (Grid.quarters_pos rank scale)
  refine Nat.pos_of_ne_zero fun hzero => ?_
  rw [readsBack_iff, hzero, Nat.zero_mul] at hread
  split_ifs at hread <;> omega

theorem onGrid_pos {rank : Nat} (h : 0 < rank) {scale : Int} {count : Nat}
    (hgrid : onGrid rank scale = some count) : 0 < count := by
  obtain ⟨preferred, other, hcases⟩ : ∃ preferred other, onGrid rank scale =
      if readsBack rank (Grid.of rank scale) preferred then some preferred
      else if readsBack rank (Grid.of rank scale) other then some other else none :=
    ⟨_, _, rfl⟩
  rw [hcases] at hgrid
  split_ifs at hgrid with hpreferred hother <;> cases hgrid
  · exact count_pos_of_readsBack h hpreferred
  · exact count_pos_of_readsBack h hother

/-- The nearer one of the points around a double reads back if it is near enough. -/
theorem readsBack_of_near {rank : Nat} (h : 0 < rank) {grid : Grid} {count : Nat}
    (hquarters : 0 < grid.quarters)
    (hstep : grid.tens * 10 ^ 16 ≤ 4 * significand rank * grid.quarters)
    (hbelow : 4 * significand rank * grid.quarters ≤ count * grid.tens + grid.tens / 2)
    (habove : count * grid.tens ≤ 4 * significand rank * grid.quarters + grid.tens / 2) :
    readsBack rank grid count = true := by
  have hm := significand_pos h
  have hproduct : significand rank * grid.quarters ≤ 9007199254740991 * grid.quarters :=
    Nat.mul_le_mul_right _ (by have := significand_lt rank; unfold binade at this; omega)
  have hhigh : (4 * significand rank + 2) * grid.quarters =
      4 * significand rank * grid.quarters + 2 * grid.quarters := Nat.add_mul _ _ _
  have hlow : (4 * significand rank - below rank) * grid.quarters + below rank * grid.quarters =
      4 * significand rank * grid.quarters := by
    have hbelow := below_le rank
    rw [← Nat.add_mul, Nat.sub_add_cancel (by omega)]
  have hassoc : 4 * significand rank * grid.quarters = 4 * (significand rank * grid.quarters) :=
    Nat.mul_assoc _ _ _
  -- a quarter is reached below a power of two, but there the grid is twice as fine
  have hwithin : grid.tens / 2 < below rank * grid.quarters := by
    unfold below
    split_ifs with hpower
    · rw [hassoc, hpower.1] at hstep
      unfold binade at hstep
      omega
    · omega
  rw [readsBack_iff]
  split_ifs <;> omega

/-- Some point of a grid reads back if its steps are small enough. -/
theorem onGrid_isSome {rank : Nat} (h : 0 < rank) {scale : Int}
    (hstep : (Grid.of rank scale).tens * 10 ^ 16 ≤
      4 * significand rank * (Grid.of rank scale).quarters) : (onGrid rank scale).isSome := by
  have hquarters := Grid.quarters_pos rank scale
  have htens := Grid.tens_pos rank scale
  unfold onGrid
  generalize Grid.of rank scale = grid at *
  have hdiv := Nat.div_add_mod (4 * significand rank * grid.quarters) grid.tens
  have hmod := Nat.mod_lt (4 * significand rank * grid.quarters) htens
  have hsucc := Nat.add_one_mul (4 * significand rank * grid.quarters / grid.tens) grid.tens
  have hnear (count : Nat) := @readsBack_of_near rank h _ count hquarters hstep
  rw [Nat.mul_comm] at hdiv
  simp only
  generalize 4 * significand rank * grid.quarters = value at *
  generalize value / grid.tens = floor at *
  by_cases hcompare : value - floor * grid.tens < (floor + 1) * grid.tens - value ∨
      (value - floor * grid.tens = (floor + 1) * grid.tens - value ∧ floor % 2 = 0)
  · rw [if_pos hcompare, if_pos (hnear floor (by omega) (by omega))]
    rfl
  · rw [if_neg hcompare, if_pos (hnear (floor + 1) (by omega) (by omega))]
    rfl

/-- A search that reaches a fine enough grid finds a number there at the latest. -/
theorem search_pos {rank : Nat} (h : 0 < rank) {tries : Nat} {scale : Int}
    (hlast : (onGrid rank (scale - tries)).isSome) :
    0 < (search rank (tries + 1) scale).digits := by
  induction tries generalizing scale with
  | zero =>
    obtain ⟨count, hcount⟩ := Option.isSome_iff_exists.1 hlast
    rw [Nat.cast_zero, sub_zero] at hcount
    rw [search, hcount]
    exact onGrid_pos h hcount
  | succ tries ih =>
    rw [search]
    cases hgrid : onGrid rank scale with
    | some count => exact onGrid_pos h hgrid
    | none =>
      refine ih ?_
      rwa [Nat.cast_succ, ← sub_sub, sub_right_comm] at hlast

end ShortestDecimal

open ShortestDecimal in
/-- Only zero has a shortest decimal without a digit other than zero. -/
theorem shortestDecimal_digits {rank : Nat} :
    (shortestDecimal rank).digits ≠ 0 ∨ (shortestDecimal rank).scale = 0 := by
  rcases Nat.eq_zero_or_pos rank with rfl | h
  · exact .inr rfl
  · refine .inl (Nat.pos_iff_ne_zero.1 ?_)
    rw [shortestDecimal, if_neg h.ne']
    exact search_pos h (onGrid_isSome h (tens_le h))

end RecordGrammar
