import RecordGrammar.Binary64

/-! # The shortest decimal that reads back to a double, and its layout -/

namespace RecordGrammar

/-- The number `digits * 10 ^ scale`. -/
structure Decimal where
  digits : Nat
  scale : Int
  deriving DecidableEq, Repr

namespace ShortestDecimal

def decimalLength (n : Nat) : Nat := if n = 0 then 0 else (Nat.toDigits 10 n).length

/-- The exponent of the leading decimal digit of a positive quotient. -/
def leadingExponent (a b : Nat) : Int :=
  if b ≤ a then (decimalLength (a / b) : Int) - 1 else -(decimalLength ((b - 1) / a) : Int)

/-- The multiples of a power of ten compared with a double: a count of that power and a count of
quarter units of the double's last place are brought to one scale. -/
structure Grid where
  tens : Nat
  quarters : Nat
  deriving DecidableEq, Repr

def Grid.of (rank : Nat) (scale : Int) : Grid :=
  let e := Magnitude.exponent rank - 2
  ⟨Nat.pow 10 scale.toNat * Nat.pow 2 (-e).toNat, Nat.pow 2 e.toNat * Nat.pow 10 (-scale).toNat⟩

/-- How many quarter units the numbers that round to the double reach below it. Half a unit, but
a quarter where the next smaller significand has a finer last place. -/
def below (rank : Nat) : Nat :=
  if Magnitude.significand rank = Magnitude.binade ∧ -1074 < Magnitude.exponent rank then 1 else 2

/-- Whether `count` of the grid's powers of ten round to the double. The ends of the interval do so
exactly if the significand is even. -/
def readsBack (rank : Nat) (grid : Grid) (count : Nat) : Bool :=
  let m := Magnitude.significand rank
  let low := (4 * m - below rank) * grid.quarters
  let high := (4 * m + 2) * grid.quarters
  let value := count * grid.tens
  if m % 2 = 0 then decide (low ≤ value ∧ value ≤ high) else decide (low < value ∧ value < high)

/-- The grid point that reads back and is nearest to the double, the even one of two. -/
def onGrid (rank : Nat) (scale : Int) : Option Nat :=
  let grid := Grid.of rank scale
  let value := 4 * Magnitude.significand rank * grid.quarters
  let floor := value / grid.tens
  let toFloor := value - floor * grid.tens
  let toNext := (floor + 1) * grid.tens - value
  let preferred :=
    if toFloor < toNext ∨ (toFloor = toNext ∧ floor % 2 = 0) then floor else floor + 1
  let other := if preferred = floor then floor + 1 else floor
  if readsBack rank grid preferred then some preferred
  else if readsBack rank grid other then some other
  else none

/-- Tries one more digit at a time. Seventeen are always enough. -/
def search (rank : Nat) : Nat → Int → Decimal
  | 0, scale => ⟨0, scale⟩
  | tries + 1, scale =>
    match onGrid rank scale with
    | some count => ⟨count, scale⟩
    | none => search rank tries (scale - 1)

end ShortestDecimal

open ShortestDecimal in
/-- The decimal of fewest digits that reads back to the magnitude, and of those the nearest. -/
def shortestDecimal (rank : Nat) : Decimal :=
  if rank = 0 then ⟨0, 0⟩
  else
    let value := Magnitude.ratio rank
    search rank 17 (leadingExponent value.1 value.2)

def Decimal.significant (d : Decimal) : List Char :=
  let digits := ((Nat.toDigits 10 d.digits).reverse.dropWhile (· = '0')).reverse
  if digits.isEmpty then ['0'] else digits

/-- The exponent of the leading digit. -/
def Decimal.magnitude (d : Decimal) : Int := d.scale + ((Nat.toDigits 10 d.digits).length : Int) - 1

/-- Digits with a point behind the first `whole` of them, and zeros where digits are missing. -/
def positional (digits : List Char) (whole : Nat) : List Char :=
  let fraction := digits.drop whole
  digits.take whole ++ List.replicate (whole - digits.length) '0' ++
    '.' :: (if fraction.isEmpty then ['0'] else fraction)

def scientific (digits : List Char) (exponent : Int) : List Char :=
  let fraction := digits.drop 1
  digits.take 1 ++ (if fraction.isEmpty then [] else '.' :: fraction) ++
    'e' :: (if exponent < 0 then '-' else '+') :: Nat.toDigits 10 exponent.natAbs

/-- Positional with a decimal at least from 0.00001 on and below 10^16, and scientific beyond. -/
def Decimal.layout (d : Decimal) : List Char :=
  let digits := d.significant
  let e := d.magnitude
  if e < -5 ∨ 15 < e then scientific digits e
  else if e < 0 then '0' :: '.' :: (List.replicate ((-e).toNat - 1) '0' ++ digits)
  else positional digits (e.toNat + 1)

def FiniteDouble.text (x : FiniteDouble) : String :=
  String.ofList ((if x.negative then ['-'] else []) ++ (shortestDecimal x.rank.val).layout)

end RecordGrammar
