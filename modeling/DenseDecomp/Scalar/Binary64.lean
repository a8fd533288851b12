import DenseDecomp.Scalar

namespace DenseDecomp.Binary64

def pow2 (e : Int) : Float := Float.ofBits (UInt64.ofNat (e + 1023).toNat <<< 52)

/-- The root `√(x² + y²)` for `0 ≤ y ≤ x`, with one correction for its own rounding. -/
def hypotScaled (x y : Float) : Float :=
  let h := Float.sqrt (x * x + y * y)
  let correction :=
    if h ≤ 2.0 * y then
      let d := h - y
      x * (2.0 * d - x) + (d - 2.0 * (x - y)) * d
    else
      let d := h - x
      2.0 * d * (x - 2.0 * y) + ((4.0 * d - y) * y + d * d)
  h - correction / (2.0 * h)

/-- The length of `(x, y)`, moved towards one where the squares would leave the range. A leg below
the last digit of the other counts as added to it. -/
def hypot (x y : Float) : Float :=
  let x := x.abs
  let y := y.abs
  if x.isInf || y.isInf then 1.0 / 0.0
  else if x.isNaN || y.isNaN then 0.0 / 0.0
  else
    let big := if x < y then y else x
    let small := if x < y then x else y
    if pow2 511 < big then
      if small ≤ big * pow2 (-54) then big + small
      else hypotScaled (big * pow2 (-600)) (small * pow2 (-600)) / pow2 (-600)
    else if small < pow2 (-459) then
      if small / pow2 (-54) ≤ big then big + small
      else hypotScaled (big / pow2 (-600)) (small / pow2 (-600)) * pow2 (-600)
    else if small ≤ big * pow2 (-54) then big + small
    else hypotScaled big small

instance : Scalar Float where
  zero := 0.0
  one := 1.0
  abs := Float.abs
  sqrt := Float.sqrt
  hypot := hypot
  decidableLT a b := inferInstanceAs (Decidable (a < b))
  decidableLE a b := inferInstanceAs (Decidable (a ≤ b))

end DenseDecomp.Binary64
