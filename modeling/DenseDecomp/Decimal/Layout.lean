import DenseDecomp.Decimal.Shortest

namespace DenseDecomp.Decimal

/-- How digits are laid out: which leading exponents are written with a point in place, and whether
a whole number then keeps `.0`. -/
structure Layout where
  positional : Int → Bool
  pointZero : Bool

def Layout.plain : Layout := ⟨fun _ ↦ true, false⟩

def Layout.literal : Layout := ⟨fun e ↦ -4 ≤ e ∧ e < 16, true⟩

def zeros (k : Nat) : String := String.ofList (List.replicate k '0')

def pointAfter (whole fraction : String) : String :=
  if fraction.isEmpty then whole else whole ++ "." ++ fraction

def Layout.digits (l : Layout) (d : Digits) : String :=
  let text := toString d.digits
  let leading := d.exponent + text.length - 1
  if d.digits = 0 ∨ l.positional leading then
    if 0 ≤ d.exponent then
      text ++ zeros d.exponent.toNat ++ if l.pointZero then ".0" else ""
    else if 0 ≤ leading then
      let whole := leading.toNat + 1
      pointAfter (text.take whole).toString (text.drop whole).toString
    else "0." ++ zeros (-leading - 1).toNat ++ text
  else pointAfter (text.take 1).toString (text.drop 1).toString ++ "e" ++ toString leading

def Layout.parts (l : Layout) : Parts → String
  | .notANumber => "NaN"
  | .infinite negative => if negative then "-inf" else "inf"
  | .finite negative m e => (if negative then "-" else "") ++ l.digits (shortest m e)

def Layout.render (l : Layout) (x : Float) : String := l.parts (.ofFloat x)

end DenseDecomp.Decimal
