import DenseDecomp.Decimal.Scientific
import DenseDecomp.Failure

namespace DenseDecomp

def Error.message : Error Float → String
  | .invalidDimensions r c => s!"Invalid matrix dimensions: {r}x{c} (both must be at least 1)"
  | .dataLength expected actual =>
    s!"Data length mismatch: expected {expected} elements, got {actual}"
  | .notSquare r c => s!"Matrix must be square, got {r}x{c}"
  | .dimensionMismatch r c r' c' =>
    "Incompatible matrix dimensions: (" ++ toString r ++ "x" ++ toString c ++ ") and (" ++
      toString r' ++ "x" ++ toString c' ++ ")"
  | .notPositiveDefinite => "Matrix is not symmetric positive definite"
  | .convergenceFailed iterations residual =>
    s!"Convergence failed after {iterations} iterations (residual: " ++
      Decimal.scientific residual ++ ")"

def Fault.message : Fault → String
  | .indexOutOfBounds i j r c => s!"index ({i}, {j}) out of bounds for {r}x{c} matrix"
  | .rowOutOfBounds i r => s!"row {i} out of bounds ({r})"
  | .offsetOutOfBounds k length =>
    s!"index out of bounds: the len is {length} but the index is {k}"
  | .multiplyOverflow => "attempt to multiply with overflow"
  | .addOverflow => "attempt to add with overflow"
  | .subtractOverflow => "attempt to subtract with overflow"
  | .capacityOverflow => "capacity overflow"

end DenseDecomp
