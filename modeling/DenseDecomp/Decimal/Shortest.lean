import DenseDecomp.Decimal.Basic

namespace DenseDecomp.Decimal

/-- The value `digits * 10 ^ exponent`, with no zero at the end of the digits. -/
structure Digits where
  digits : Nat
  exponent : Int
deriving DecidableEq

def Digits.trim (digits : Nat) (exponent : Int) : Digits :=
  if h : digits ≠ 0 ∧ digits % 10 = 0 then trim (digits / 10) (exponent + 1)
  else ⟨digits, exponent⟩
termination_by digits
decreasing_by omega

/-- The values that round to `mantissa * 2 ^ exponent`, measured in quarters of its last place. The
ends belong to them when the mantissa is even. -/
structure Interval where
  low : Nat
  value : Nat
  high : Nat
  closed : Bool
deriving DecidableEq

def Interval.around (mantissa : Nat) (exponent : Int) : Interval where
  low := 4 * mantissa - if mantissa = hiddenBit ∧ leastExponent < exponent then 1 else 2
  value := 4 * mantissa
  high := 4 * mantissa + 2
  closed := mantissa % 2 = 0

/-- Whether `k` steps of a grid lie in the interval; `r` is one quarter over one step. -/
def Interval.contains (s : Interval) (r : Ratio) (k : Nat) : Bool :=
  let x := k * r.den
  if s.closed then s.low * r.num ≤ x ∧ x ≤ s.high * r.num
  else s.low * r.num < x ∧ x < s.high * r.num

def Interval.nearest? (s : Interval) (r : Ratio) : Option Nat :=
  let x := s.value * r.num
  let k := x / r.den
  if s.contains r k then
    if s.contains r (k + 1) ∧ (k + 1) * r.den - x ≤ x - k * r.den then some (k + 1) else some k
  else if s.contains r (k + 1) then some (k + 1) else none

def searchGrids (s : Interval) (exponent leading : Int) : (fuel count : Nat) → Digits
  | 0, _ => ⟨0, 0⟩
  | fuel + 1, count =>
    let unit := leading + 1 - count
    match s.nearest? (.binaryOverDecimal (exponent - 2) unit) with
    | some k => .trim k unit
    | none => searchGrids s exponent leading fuel (count + 1)

/-- The fewest digits that read back as `mantissa * 2 ^ exponent`, and of those the nearest.
Seventeen always do. -/
def shortest (mantissa : Nat) (exponent : Int) : Digits :=
  if mantissa = 0 then ⟨0, 0⟩
  else
    let leading := ((Ratio.binaryOverDecimal exponent 0).mulNat mantissa).leadingExponent
    searchGrids (.around mantissa exponent) exponent leading 17 1

end DenseDecomp.Decimal
