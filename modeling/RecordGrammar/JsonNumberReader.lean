import RecordGrammar.JsonValue

/-! # Reading JSON numbers

The digits are gathered in a significand of 64 bits. Digits that no longer fit are dropped, the
whole ones among them raising the decimal exponent. The double of the significand is then scaled
by powers of ten, each a double itself. -/

namespace RecordGrammar

/-- A number as it is written. -/
structure Numeral where
  negative : Bool
  whole : List Nat
  fraction : List Nat
  exponent : Option Int
  deriving DecidableEq, Repr

namespace Numeral

def digit? (c : Char) : Option Nat := if c.isDigit then some (c.toNat - '0'.toNat) else none

def readDigits : List Char → List Nat × List Char
  | [] => ([], [])
  | c :: rest => match digit? c with
    | some d => let (digits, after) := readDigits rest; (d :: digits, after)
    | none => ([], c :: rest)

def ofDigits (digits : List Nat) : Nat := digits.foldl (fun n d => 10 * n + d) 0

/-- The digits behind a point, of which there is one at least. -/
def readFraction : List Char → Option (List Nat × List Char)
  | '.' :: rest => match readDigits rest with
    | ([], _) => none
    | digits => some digits
  | text => some ([], text)

def readSign : List Char → Bool × List Char
  | '+' :: rest => (false, rest)
  | '-' :: rest => (true, rest)
  | text => (false, text)

def readExponent : List Char → Option (Option Int × List Char)
  | c :: rest =>
    if c = 'e' ∨ c = 'E' then
      let (negative, rest) := readSign rest
      match readDigits rest with
      | ([], _) => none
      | (digits, after) =>
        let n : Int := ofDigits digits
        some (some (if negative then -n else n), after)
    else some (none, c :: rest)
  | [] => some (none, [])

/-- A zero is not followed by a further digit. -/
def read (text : List Char) : Option (Numeral × List Char) := do
  let (negative, text) := match text with
    | '-' :: rest => (true, rest)
    | text => (false, text)
  let (whole, text) := readDigits text
  if whole.isEmpty || (whole.head? == some 0 && whole.length != 1) then none
  let (fraction, text) ← readFraction text
  let (exponent, text) ← readExponent text
  return (⟨negative, whole, fraction, exponent⟩, text)

/-- Appends digits to a significand as long as it fits 64 bits, and leaves the others. -/
def gather : Nat → List Nat → Nat × List Nat
  | significand, [] => (significand, [])
  | significand, d :: rest =>
    if 10 * significand + d < UInt64.size then gather (10 * significand + d) rest
    else (significand, d :: rest)

def tenTo (k : Nat) : Nat := Magnitude.round (Nat.pow 10 k) 1

/-- Divides by powers of ten, none above 10^308. -/
def shrink : Nat → Nat → Nat → Nat
  | 0, rank, _ => rank
  | steps + 1, rank, k =>
    if k ≤ 308 then Magnitude.div rank (tenTo k)
    else if rank = 0 then 0
    else shrink steps (Magnitude.div rank (tenTo 308)) (k - 308)

/-- The rank of a significand times a power of ten, none if it overflows. -/
def scaled (significand : Nat) (exponent : Int) : Option Nat :=
  let rank := Magnitude.round significand 1
  if exponent < 0 then some (shrink (exponent.natAbs / 308 + 1) rank exponent.natAbs)
  else if exponent ≤ 308 then
    let product := Magnitude.mul rank (tenTo exponent.toNat)
    if product < Magnitude.limit then some product else none
  else if rank = 0 then some 0
  else none

def float (negative : Bool) (rank : Nat) : Option JsonNumber :=
  (FiniteDouble.ofRank? negative rank).map .float

/-- A number with neither fraction nor exponent is an integer if it fits 64 bits with or without a
sign; `-0` is a float. A number beyond the doubles is none. -/
def value (n : Numeral) : Option JsonNumber :=
  let (whole, dropped) := gather 0 n.whole
  if dropped.isEmpty && n.fraction.isEmpty && n.exponent.isNone then
    if !n.negative then some (.int whole)
    else if 0 < whole ∧ (int64? (-whole)).isSome then some (.int (-whole))
    else float true (Magnitude.round whole 1)
  else
    let (significand, unused) := gather whole n.fraction
    let places := n.fraction.length - unused.length
    let scale := (dropped.length : Int) - places + n.exponent.getD 0
    (scaled significand scale).bind (float n.negative)

end Numeral

end RecordGrammar
