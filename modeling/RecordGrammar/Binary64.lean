/-! # Doubles and correct rounding in exact arithmetic

The nonnegative finite doubles in ascending order are numbered from zero. This rank is the bit
pattern without its sign, and rounding is a function from ratios to ranks. -/

namespace RecordGrammar

namespace Magnitude

/-- How many doubles there are from a power of two up to the next one: two to the 52nd. -/
def binade : Nat := 4503599627370496

/-- The rank at which the doubles overflow. -/
def limit : Nat := 2047 * binade

def significand (rank : Nat) : Nat := if rank < binade then rank else binade + rank % binade

/-- The exponent of two by which the significand counts. -/
def exponent (rank : Nat) : Int :=
  if rank < binade then -1074 else ((rank / binade : Nat) : Int) - 1075

/-- The value of a rank as numerator and denominator. -/
def ratio (rank : Nat) : Nat × Nat :=
  let e := exponent rank
  (significand rank * Nat.pow 2 e.toNat, Nat.pow 2 (-e).toNat)

/-- The whole number nearest to a quotient, the even one of two. -/
def halfEven (a b : Nat) : Nat :=
  let q := a / b
  let r := a % b
  if b < 2 * r ∨ (2 * r = b ∧ q % 2 = 1) then q + 1 else q

/-- The exponent of the greatest power of two that is not above a positive quotient. -/
def floorLog2 (a b : Nat) : Int :=
  let e : Int := (a.log2 : Int) - b.log2
  if a * Nat.pow 2 (-e).toNat < b * Nat.pow 2 e.toNat then e - 1 else e

/-- The rank of the double nearest to a quotient, the one of even significand of two. -/
def round (a b : Nat) : Nat :=
  if a = 0 then 0
  else
    let e := max (-1074) (floorLog2 a b - 52)
    (e + 1074).toNat * binade +
      halfEven (a * Nat.pow 2 (-e).toNat) (b * Nat.pow 2 e.toNat)

def mul (r s : Nat) : Nat := round ((ratio r).1 * (ratio s).1) ((ratio r).2 * (ratio s).2)

def div (r s : Nat) : Nat := round ((ratio r).1 * (ratio s).2) ((ratio r).2 * (ratio s).1)

end Magnitude

/-- A finite double. Zero has both signs. -/
structure FiniteDouble where
  negative : Bool
  rank : Fin Magnitude.limit
  deriving DecidableEq, Repr

inductive Double where
  | finite (x : FiniteDouble)
  | infinite (negative : Bool)
  | nan
  deriving DecidableEq, Repr

def FiniteDouble.ofRank? (negative : Bool) (rank : Nat) : Option FiniteDouble :=
  if h : rank < Magnitude.limit then some ⟨negative, ⟨rank, h⟩⟩ else none

def Double.ofRank (negative : Bool) (rank : Nat) : Double :=
  (FiniteDouble.ofRank? negative rank).elim (.infinite negative) .finite

/-- The double nearest to an integer. -/
def Double.ofInt (n : Int) : Double := .ofRank (decide (n < 0)) (Magnitude.round n.natAbs 1)

end RecordGrammar
