import DenseDecomp.Scalar

namespace DenseDecomp.Scalar

/-- The quotient `(a + i b) / (c + i d)` as real and imaginary part. The larger part of the divisor
is divided out first, so that no intermediate product is needlessly large. -/
def complexQuotient {α : Type} [Scalar α] (a b c d : α) : α × α :=
  if abs d < abs c then
    let r := d / c
    let s := c + r * d
    ((a + r * b) / s, (b - r * a) / s)
  else
    let r := c / d
    let s := d + r * c
    ((r * a + b) / s, (r * b - a) / s)

end DenseDecomp.Scalar
