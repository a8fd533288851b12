import DenseDecomp.Decimal.Layout

namespace DenseDecomp.Decimal

def Ratio.roundHalfEven (r : Ratio) : Nat :=
  let q := r.num / r.den
  let rest := 2 * (r.num % r.den)
  if rest < r.den ∨ (rest = r.den ∧ q % 2 = 0) then q else q + 1

def threeDigits (mantissa : Nat) (exponent : Int) : Nat × Int :=
  let leading := ((Ratio.binaryOverDecimal exponent 0).mulNat mantissa).leadingExponent
  let digits := ((Ratio.binaryOverDecimal exponent (leading - 2)).mulNat mantissa).roundHalfEven
  if digits = 1000 then (100, leading + 1) else (digits, leading)

def scientificText (mantissa : Nat) (exponent : Int) : String :=
  if mantissa = 0 then "0.00e0"
  else
    let (digits, leading) := threeDigits mantissa exponent
    let text := toString digits
    (text.take 1).toString ++ "." ++ (text.drop 1).toString ++ "e" ++ toString leading

def scientific (x : Float) : String :=
  match Parts.ofFloat x with
  | .notANumber => "NaN"
  | .infinite negative => if negative then "-inf" else "inf"
  | .finite negative m e => (if negative then "-" else "") ++ scientificText m e

end DenseDecomp.Decimal
